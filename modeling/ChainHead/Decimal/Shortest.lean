/-! The shortest decimal text of a binary64 value. A finite value is `m * 2 ^ q`; the reals that round to
it form an interval around it, whose ends belong to it iff `m` is even. For 1, 2, ... 17 digits the
two neighbours of the value on the decimal grid of that many digits are tried: the first grid with a
neighbour in the interval gives the digits, of two neighbours the nearer one, and of two equally near
the even one. How the digits are laid out is a `Layout`. -/

namespace ChainHead.Shortest

/-- A decimal `digits * 10 ^ exponent`. -/
structure Decimal where
  digits : Nat
  exponent : Int
deriving DecidableEq, Repr

/-- The sign of a binary64 value, given by its bits. -/
def isNegative (bits : UInt64) : Bool :=
  bits >>> 63 == 1

def exponentField (bits : UInt64) : Nat :=
  (bits >>> 52).toNat % 2048

def fractionField (bits : UInt64) : Nat :=
  bits.toNat % 0x10000000000000

/-- A nonnegative rational with a positive denominator, as numerator and denominator. -/
abbrev Ratio := Nat × Nat

/-- `n * 2 ^ q`. -/
def scaleTwo (n : Nat) (q : Int) : Ratio :=
  if 0 ≤ q then (n * Nat.pow 2 q.toNat, 1) else (n, Nat.pow 2 (-q).toNat)

/-- The quotient of a rational by `10 ^ e`, rounded down. -/
def gridFloor (r : Ratio) (e : Int) : Nat :=
  if 0 ≤ e then r.1 / (r.2 * Nat.pow 10 e.toNat) else r.1 * Nat.pow 10 (-e).toNat / r.2

/-- `k * 10 ^ e` compared with a rational. -/
def compareGrid (k : Nat) (e : Int) (r : Ratio) : Ordering :=
  if 0 ≤ e then compare (k * Nat.pow 10 e.toNat * r.2) r.1
  else compare (k * r.2) (r.1 * Nat.pow 10 (-e).toNat)

/-- The reals that round to a value: the value itself and the two ends of its interval, all of them
in quarters of the last place of `m`. -/
structure Interval where
  value : Ratio
  low : Ratio
  high : Ratio
  closed : Bool

/-- The interval of a finite nonzero magnitude. Below a power of two the gap is half as wide. -/
def interval (bits : UInt64) : Interval :=
  let e := exponentField bits
  let f := fractionField bits
  let m := if e = 0 then f else f + 0x10000000000000
  let q : Int := (if e = 0 then 1 else (e : Int)) - 1075 - 2
  let below := if f = 0 ∧ 1 < e then 1 else 2
  ⟨scaleTwo (4 * m) q, scaleTwo (4 * m - below) q, scaleTwo (4 * m + 2) q, m % 2 = 0⟩

/-- Whether `k * 10 ^ e` rounds to the value. -/
def Interval.contains (i : Interval) (k : Nat) (e : Int) : Bool :=
  match compareGrid k e i.low, compareGrid k e i.high with
  | .lt, _ | _, .gt => false
  | .gt, .lt => true
  | _, _ => i.closed

def nearer (r : Ratio) (k : Nat) (e : Int) : Nat :=
  let twice : Ratio := (2 * r.1, r.2)
  match compareGrid (2 * k + 1) e twice with
  | .gt => k
  | .lt => k + 1
  | .eq => if k % 2 = 0 then k else k + 1

/-- The exponent of the first digit, searched near an estimate from above. -/
def leadingExponent (r : Ratio) : Nat → Int → Int
  | 0, e => e
  | fuel + 1, e => if compareGrid 1 e r = .gt then leadingExponent r fuel (e - 1) else e

/-- The first grid, from coarse to fine, on which a neighbour of the value rounds to it. -/
def search (i : Interval) (lead : Int) : Nat → Nat → Decimal
  | 0, n => ⟨gridFloor i.value (lead - n), lead - n⟩
  | fuel + 1, n =>
    let e := lead - n
    let k := gridFloor i.value e
    match i.contains k e, i.contains (k + 1) e with
    | true, true => ⟨nearer i.value k e, e⟩
    | true, false => ⟨k, e⟩
    | false, true => ⟨k + 1, e⟩
    | false, false => search i lead fuel (n + 1)

def Decimal.reduce : Nat → Decimal → Decimal
  | 0, d => d
  | fuel + 1, d =>
    if d.digits ≠ 0 ∧ d.digits % 10 = 0 then Decimal.reduce fuel ⟨d.digits / 10, d.exponent + 1⟩ else d

def decimal (bits : UInt64) : Decimal :=
  if bits.toNat % 0x8000000000000000 = 0 then ⟨0, 0⟩
  else
    let i := interval bits
    let guess : Int := ((i.value.1.log2 : Int) - (i.value.2.log2 : Int) + 1) * 30103 / 100000 + 1
    let lead := leadingExponent i.value 4 guess
    (search i lead 17 0).reduce 20

/-- How digits are laid out: the exponents of the first digit that are written positionally, and
whether a whole number keeps a point and a zero. -/
structure Layout where
  positional : Int → Bool
  pointed : Bool

/-- Digits with the first one at the power of ten `lead`, in positional notation. -/
def positionalText (layout : Layout) (digits : List Char) (lead : Int) : List Char :=
  if lead < 0 then
    ['0', '.'] ++ List.replicate (-lead - 1).toNat '0' ++ digits
  else
    let whole := lead.toNat + 1
    if digits.length ≤ whole then
      digits ++ List.replicate (whole - digits.length) '0' ++ (if layout.pointed then ['.', '0'] else [])
    else digits.take whole ++ '.' :: digits.drop whole

/-- Digits in scientific notation: the exponent has a sign and at least two digits. -/
def scientificText (digits : List Char) (lead : Int) : List Char :=
  let mantissa :=
    match digits with
    | first :: second :: rest => first :: '.' :: second :: rest
    | short => short
  let size := Nat.toDigits 10 lead.natAbs
  mantissa ++ ['e', if lead < 0 then '-' else '+'] ++
    (if size.length < 2 then '0' :: size else size)

def text (layout : Layout) (bits : UInt64) : String :=
  if exponentField bits = 2047 then
    if fractionField bits ≠ 0 then "NaN" else if isNegative bits then "-inf" else "inf"
  else
    let d := decimal bits
    let digits := Nat.toDigits 10 d.digits
    let lead := d.exponent + digits.length - 1
    let body :=
      if layout.positional lead then positionalText layout digits lead
      else scientificText digits lead
    String.ofList (if isNegative bits then '-' :: body else body)

end ChainHead.Shortest
