import ChainHead.Text.Cut
import ChainHead.Toml.Text

/-! Numbers, dates, times and truth values. Digits may be parted by single underscores. An integer fits 64
bits with a sign; a real is rounded to the nearest binary64 value and may not exceed the largest one. Four
digits and a hyphen begin a date, two digits and a colon a time. -/

namespace ChainHead.Toml.Reader

def digits (what : String) (isDigit : Char → Bool) : Reader (List Char) := do
  let start ← get
  let run ← takeWhile fun c => isDigit c || c == '_'
  let parts := Cut.pieces (· == '_') run
  if parts.any List.isEmpty then
    set start
    mismatch what ["digit"]
  return parts.flatten

def valueIn (radix : Nat) (digits : List Char) : Nat :=
  digits.foldl (fun value c => value * radix + (hexDigit? c).getD 0) 0

def integer (value : Int) : Reader (Span → Node) := do
  if value < -0x8000000000000000 ∨ 0x8000000000000000 ≤ value then mismatch "integer" []
  return (.integer · value)

def marked (radix : Nat) : Reader (Span → Node) := do
  eat 2
  let inRadix (c : Char) : Bool := (hexDigit? c).any (· < radix)
  integer (valueIn radix (← digits "integer" inRadix))

/-- The binary64 value of `significand * 10 ^ exponent`. Exponents far beyond the range are cut to it. -/
def nearest (negative : Bool) (significand : List Char) (exponent : Int) : Float :=
  let size : Int := significand.length
  let e := max (-400 - size) (min 400 exponent)
  let magnitude := Float.ofScientific (valueIn 10 significand) (e < 0) e.natAbs
  if negative then -magnitude else magnitude

def real (negative : Bool) (significand : List Char) (exponent : Int) : Reader (Span → Node) := do
  let value := nearest negative significand exponent
  if value.isInf ∧ ¬ negative then mismatch "floating-point number" []
  return (.real · value.toBits)

def negativeSign : Reader Bool := do
  if ← accept ['-'] then return true
  discard (accept ['+'])
  return false

def exponent? : Reader (Option Int) := do
  if (← accept ['e']) || (← accept ['E']) then
    let negative ← negativeSign
    let value := valueIn 10 (← digits "floating-point number" Char.isDigit)
    return some (if negative then -value else value)
  return none

def unsigned (negative : Bool) : Reader (Span → Node) := do
  if ← accept ['i', 'n', 'f'] then
    return (.real · (if negative then 0xfff0000000000000 else 0x7ff0000000000000))
  if ← accept ['n', 'a', 'n'] then
    return (.real · (if negative then 0xfff8000000000000 else 0x7ff8000000000000))
  let whole ← digits "integer" Char.isDigit
  if whole.head? = some '0' ∧ 1 < whole.length then refuse (.mismatch none ["newline", "`#`"])
  if ← accept ['.'] then
    let fraction ← digits "floating-point number" Char.isDigit
    let exponent := (← exponent?).getD 0
    real negative (whole ++ fraction) (exponent - fraction.length)
  else
    match ← exponent? with
    | some exponent => real negative whole exponent
    | none =>
      let value : Int := valueIn 10 whole
      integer (if negative then -value else value)

def field (size low high : Nat) : Reader Nat := do
  let run := (← get).rest.take size
  let value := valueIn 10 run
  if run.length ≠ size ∨ !run.all Char.isDigit ∨ value < low ∨ high < value then
    mismatch "date-time" []
  eat size
  return value

def mark (c : Char) : Reader Unit := do
  if !(← accept [c]) then mismatch "date-time" []

def monthDays (year month : Nat) : Nat :=
  if month = 2 then
    if year % 4 = 0 ∧ (year % 100 ≠ 0 ∨ year % 400 = 0) then 29 else 28
  else if month ∈ [4, 6, 9, 11] then 30
  else 31

def date : Reader Unit := do
  let year ← field 4 0 9999
  mark '-'
  let month ← field 2 1 12
  mark '-'
  discard (field 2 1 (monthDays year month))

def time : Reader Unit := do
  discard (field 2 0 23)
  mark ':'
  discard (field 2 0 59)
  mark ':'
  discard (field 2 0 60)
  if ← accept ['.'] then
    if (← takeWhile Char.isDigit).isEmpty then mismatch "date-time" []

def zone : Reader Unit := do
  if (← accept ['Z']) || (← accept ['z']) then return
  if (← accept ['+']) || (← accept ['-']) then
    discard (field 2 0 23)
    mark ':'
    discard (field 2 0 59)

def seesDigits (skip size : Nat) (c : Char) : Reader Bool := do
  let ahead := (← get).rest.drop skip
  return (ahead.take size).all Char.isDigit && ahead[size]? = some c

/-- Reads a date, with a time and its zone if they follow. -/
def dateAndTime : Reader Unit := do
  date
  match ← peek with
  | some 'T' | some 't' | some ' ' =>
    if ← seesDigits 1 2 ':' then
      eat 1
      time
      zone
  | _ => return

def numeric : Reader (Span → Node) := do
  if ← seesDigits 0 4 '-' then
    dateAndTime
    return .moment
  if ← seesDigits 0 2 ':' then
    time
    return .moment
  if ← sees ['0', 'x'] then marked 16
  else if ← sees ['0', 'o'] then marked 8
  else if ← sees ['0', 'b'] then marked 2
  else unsigned (← negativeSign)

/-- Reads a value that holds no other value, whose place is to come. -/
def unplaced : Reader (Span → Node) := do
  match ← peek with
  | some '"' =>
    let value ← text '"'
    return (.text · value)
  | some '\'' =>
    let value ← text '\''
    return (.text · value)
  | some 't' =>
    if ← accept ['t', 'r', 'u', 'e'] then return (.flag · true)
    mismatch "boolean" ["`true`"]
  | some 'f' =>
    if ← accept ['f', 'a', 'l', 's', 'e'] then return (.flag · false)
    mismatch "boolean" ["`false`"]
  | some c =>
    if c.isDigit || ['+', '-', 'i', 'n'].contains c then numeric
    else if c = '[' ∨ c = '\x7b' then refuse .tooDeep
    else if c = '_' then mismatch "integer" ["leading digit"]
    else if c = '.' then mismatch "floating-point number" ["leading digit"]
    else mismatch "string" ["`\"`", "`'`"]
  | none => mismatch "string" ["`\"`", "`'`"]

def scalar : Reader Node := do
  let (span, make) ← spanned unplaced
  return make span

end ChainHead.Toml.Reader
