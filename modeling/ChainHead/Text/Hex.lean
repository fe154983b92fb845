import ChainHead.Text.Quoted
import ChainHead.Text.Utf8

/-! Bytes as hexadecimal text. Writing uses lower case and the mark 0x. Reading takes digits and the letter of
the mark in either case, does without the mark, and judges in this order: an even number of bytes, the
expected length, then the digits from left to right. -/

namespace ChainHead.Hex

def digits (b : UInt8) : List Char :=
  [Nat.digitChar (b.toNat / 16), Nat.digitChar (b.toNat % 16)]

def encode (bytes : List UInt8) : List Char :=
  '0' :: 'x' :: bytes.flatMap digits

/-- The value of a hexadecimal digit, given as an ASCII byte. -/
def digit? (b : UInt8) : Option UInt8 :=
  if 0x30 ≤ b && b ≤ 0x39 then some (b - 0x30)
  else if 0x61 ≤ b && b ≤ 0x66 then some (b - 0x57)
  else if 0x41 ≤ b && b ≤ 0x46 then some (b - 0x37)
  else none

/-- Why a text is not the hexadecimal form of bytes. -/
inductive Fault where
  | oddLength
  | wrongLength
  | badDigit (found : UInt8) (index : Nat)
deriving DecidableEq, Repr

/-- The wording of a fault. A byte that is no digit is shown as the character of its number. -/
def Fault.message : Fault → String
  | .oddLength => "odd number of digits"
  | .wrongLength => "invalid string length"
  | .badDigit found index =>
    "invalid character " ++ Quoted.character (Char.ofNat found.toNat) ++ " at position " ++
      toString index

def unmark : List UInt8 → List UInt8
  | 0x30 :: 0x78 :: rest => rest
  | 0x30 :: 0x58 :: rest => rest
  | text => text

/-- Reads pairs of digits, the first of which stands at `index`. -/
def pairs (index : Nat) : List UInt8 → Except Fault (List UInt8)
  | [] => .ok []
  | [_] => .error .oddLength
  | a :: b :: rest =>
    match digit? a, digit? b with
    | some x, some y => (pairs (index + 2) rest).map ((x * 16 + y) :: ·)
    | none, _ => .error (.badDigit a index)
    | some _, none => .error (.badDigit b (index + 1))

def decode (text : String) : Except Fault (List UInt8) :=
  let bytes := Utf8.encode text.toList
  if bytes.length % 2 ≠ 0 then .error .oddLength else pairs 0 (unmark bytes)

/-- The bytes of a text that has to stand for `size` bytes. -/
def decodeSized (size : Nat) (text : String) : Except Fault (List UInt8) :=
  let bytes := Utf8.encode text.toList
  if bytes.length % 2 ≠ 0 then .error .oddLength
  else if (unmark bytes).length ≠ 2 * size then .error .wrongLength
  else pairs 0 (unmark bytes)

theorem length_of_pairs {index : Nat} {text bytes : List UInt8} (h : pairs index text = .ok bytes) :
    text.length = 2 * bytes.length := by
  fun_induction pairs index text generalizing bytes with
  | case1 => cases h; rfl
  | case2 => cases h
  | case3 index a b rest x y hx hy ih =>
    cases hr : pairs (index + 2) rest with
    | error fault => rw [hr] at h; cases h
    | ok tail => rw [hr] at h; cases h; have := ih hr; simp only [List.length_cons]; omega
  | case4 => cases h
  | case5 => cases h

theorem length_of_decodeSized {size : Nat} {text : String} {bytes : List UInt8}
    (h : decodeSized size text = .ok bytes) : bytes.length = size := by
  simp only [decodeSized] at h
  split at h
  · cases h
  · split at h
    · cases h
    · have := length_of_pairs h
      omega

end ChainHead.Hex
