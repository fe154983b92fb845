/-! Decimal numerals. `digits` writes a number; `read` accepts a numeral below 2 ^ 64 with an optional
plus sign and any number of leading zeros, and says what is wrong with any other text. Characters are
judged from left to right, so the first one that is no digit or that passes the bound decides. -/

namespace ChainHead.Numeral

/-- The decimal digits of a number, without leading zeros. -/
def digits (n : Nat) : List Char :=
  Nat.toDigits 10 n

def text (n : Nat) : String :=
  String.ofList (digits n)

def digit? (c : Char) : Option Nat :=
  if '0' ≤ c ∧ c ≤ '9' then some (c.toNat - 48) else none

/-- Why a text is no numeral below 2 ^ 64. -/
inductive Fault where
  | empty
  | badDigit
  | tooLarge
deriving DecidableEq, Repr

def Fault.message : Fault → String
  | .empty => "cannot parse integer from empty string"
  | .badDigit => "invalid digit found in string"
  | .tooLarge => "number too large to fit in target type"

def readFrom (value : Nat) : List Char → Except Fault Nat
  | [] => .ok value
  | c :: rest =>
    match digit? c with
    | none => .error .badDigit
    | some d =>
      if value * 10 + d < 0x10000000000000000 then readFrom (value * 10 + d) rest else .error .tooLarge

def read : List Char → Except Fault UInt64
  | [] => .error .empty
  | ['+'] => .error .badDigit
  | '+' :: rest => (readFrom 0 rest).map UInt64.ofNat
  | text => (readFrom 0 text).map UInt64.ofNat

end ChainHead.Numeral
