import ChainHead.Decimal.Shortest
import ChainHead.Json.Reader
import ChainHead.Text.Numeral

/-! JSON numbers. A number without point and exponent that fits 64 bits stays an integer; any other one,
and minus zero, becomes a binary64 value. That value is the longest beginning of the digits below
2 ^ 64 as a binary64 value, multiplied or divided by a power of ten, each step rounded; a result
beyond the largest finite value is refused. -/

namespace ChainHead.Json

/-- A number: a whole number from 0 on, a negative whole number (its magnitude is given, less one), or
a binary64 value given by its bits. -/
inductive Number where
  | natural (n : UInt64)
  | negative (predecessor : Nat)
  | real (bits : UInt64)
deriving DecidableEq, Repr

/-- Reals are positional from 0.00001 to below 10 ^ 16, and a whole one keeps a point. -/
def realLayout : Shortest.Layout := ⟨fun lead => -5 ≤ lead && lead ≤ 15, true⟩

def Number.text : Number → String
  | .natural n => Numeral.text n.toNat
  | .negative k => String.ofList ('-' :: Numeral.digits (k + 1))
  | .real bits => Shortest.text realLayout bits

def Number.describe : Number → String
  | .real bits => "floating point `" ++ Shortest.text realLayout bits ++ "`"
  | n => "integer `" ++ n.text ++ "`"

/-- Appends digits to a significand as long as it stays below 2 ^ 64; also the number of digits taken. -/
def appendDigits (significand : Nat) : List Nat → Nat × Nat
  | [] => (significand, 0)
  | d :: rest =>
    if significand * 10 + d < 0x10000000000000000 then
      let (result, taken) := appendDigits (significand * 10 + d) rest
      (result, taken + 1)
    else (significand, 0)

/-- A power of ten, rounded to the nearest binary64 value. -/
def powerOfTen (n : Nat) : Float :=
  Float.ofScientific 1 false n

/-- `f * 10 ^ exponent` by rounded steps of at most 308 places; none when it is not finite. -/
def scaleTen : Nat → Float → Int → Option Float
  | 0, f, _ => some f
  | fuel + 1, f, exponent =>
    if exponent.natAbs ≤ 308 then
      if 0 ≤ exponent then
        let product := f * powerOfTen exponent.natAbs
        if product.isInf then none else some product
      else some (f / powerOfTen exponent.natAbs)
    else if f == 0.0 then some f
    else if 0 ≤ exponent then none
    else scaleTen fuel (f / powerOfTen 308) (exponent + 308)

def signed (positive : Bool) (f : Float) : Number :=
  .real (if positive then f else -f).toBits

namespace Reader

/-- The real `significand * 10 ^ exponent`. -/
def real (positive : Bool) (significand : Nat) (exponent : Int) : Reader Number :=
  match scaleTen 8 (UInt64.ofNat significand).toFloat exponent with
  | some f => pure (signed positive f)
  | none => refuse .numberTooLarge

/-- Reads the digits of an exponent behind the first one, up to the digit that passes 2 ^ 31. -/
def exponentFrom (value : Nat) (position : Position) : List UInt8 → Option Nat × Cursor
  | [] => (some value, ⟨[], position⟩)
  | b :: rest =>
    if 0x30 ≤ b && b ≤ 0x39 then
      let value := value * 10 + (b - 0x30).toNat
      if value < 0x80000000 then exponentFrom value (position.after b) rest
      else (none, ⟨rest, position.after b⟩)
    else (some value, ⟨b :: rest, position⟩)

def exponentSign : Reader Bool := do
  match ← peek with
  | some 0x2b => eat; pure true
  | some 0x2d => eat; pure false
  | _ => pure true

/-- Reads an exponent, from its letter on, and gives the real. A huge exponent makes zero of a fraction
and of zero, and is refused otherwise. -/
def exponentPart (positive : Bool) (significand : Nat) (exponent : Int) : Reader Number := do
  eat
  let up ← exponentSign
  match ← next with
  | none => refuse .endInValue
  | some b =>
    if 0x30 ≤ b && b ≤ 0x39 then
      let size : Option Nat ← fun c =>
        let (size, c') := exponentFrom (b - 0x30).toNat c.position c.rest
        .done size c'
      match size with
      | some n => real positive significand (if up then exponent + n else exponent - n)
      | none =>
        if significand ≠ 0 && up then refuse .numberTooLarge
        else do
          discard digits
          pure (signed positive 0.0)
    else refuse .badNumber

/-- Reads what follows the digits of a whole number, of which `dropped` did not fit the significand. -/
def fractionPart (positive : Bool) (significand dropped : Nat) : Reader Number := do
  match ← peek with
  | some 0x2e =>
    eat
    let fraction ← digits
    if fraction.isEmpty then
      match ← peek with
      | some _ => refuseNext .badNumber
      | none => refuseNext .endInValue
    else
      let (extended, taken) := appendDigits significand fraction
      let exponent : Int := (dropped : Int) - taken
      match ← peek with
      | some 0x65 | some 0x45 => exponentPart positive extended exponent
      | _ => real positive extended exponent
  | some 0x65 | some 0x45 => exponentPart positive significand dropped
  | _ =>
    if dropped ≠ 0 then real positive significand dropped
    else if positive then pure (.natural (UInt64.ofNat significand))
    else if significand = 0 || 0x8000000000000000 < significand then
      pure (signed false (UInt64.ofNat significand).toFloat)
    else pure (.negative (significand - 1))

def number (positive : Bool) : Reader Number := do
  match ← next with
  | none => refuse .endInValue
  | some 0x30 =>
    match ← peek with
    | some b =>
      if 0x30 ≤ b && b ≤ 0x39 then refuseNext .badNumber else fractionPart positive 0 0
    | none => fractionPart positive 0 0
  | some b =>
    if 0x31 ≤ b && b ≤ 0x39 then do
      let more ← digits
      let (significand, taken) := appendDigits (b - 0x30).toNat more
      fractionPart positive significand (more.length - taken)
    else refuse .badNumber

end Reader

end ChainHead.Json
