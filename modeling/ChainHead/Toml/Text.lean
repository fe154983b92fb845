import ChainHead.Toml.Reader

/-! Strings and keys. A string stands between quotes, in which a backslash writes characters that can not
stand for themselves, or between apostrophes, in which every character stands for itself. Three quotes or
apostrophes open a string of several lines, at whose end two more of them still belong to the string. -/

namespace ChainHead.Toml.Reader

def hexDigit? (c : Char) : Option Nat :=
  if c.isDigit then some (c.toNat - 48)
  else if 'a' ≤ c ∧ c ≤ 'f' then some (c.toNat - 87)
  else if 'A' ≤ c ∧ c ≤ 'F' then some (c.toNat - 55)
  else none

/-- Reads a character by its code point in so many hexadecimal digits. -/
def byNumber (size : Nat) : Reader Char := do
  let digits := (← get).rest.take size
  let code? := digits.foldlM (fun code c => (hexDigit? c).map (code * 16 + ·)) 0
  match code? with
  | some code =>
    if digits.length = size ∧ code.isValidChar then
      eat size
      return Char.ofNat code
    else mismatch "unicode escape" []
  | none => mismatch "unicode escape" []

def escaped : Reader Char := do
  let plain (c : Char) : Reader Char := do
    eat 1
    return c
  match ← peek with
  | some 'b' => plain '\x08'
  | some 'f' => plain '\x0c'
  | some 'n' => plain '\n'
  | some 'r' => plain '\r'
  | some 't' => plain '\t'
  | some '\\' => plain '\\'
  | some '"' => plain '"'
  | some 'u' => eat 1; byNumber 4
  | some 'U' => eat 1; byNumber 8
  | _ =>
    mismatch "escape sequence"
      ["`b`", "`f`", "`n`", "`r`", "`t`", "`u`", "`U`", "`\\`", "`\"`"]

/-- Passes over a line end behind a backslash and over all blanks and line ends behind it. -/
def foldedLine : Reader Bool := do
  let s ← get
  blanks
  if ← newline then
    loop (fun (_ : Unit) => do
      blanks
      if ← newline then return .inl ()
      return .inr ()) ()
    return true
  set s
  return false

/-- One step through a string in the given quotes. The characters read so far stand in reverse. -/
def textStep (what : String) (quote : Char) (escapes manyLines : Bool) (done : List Char) :
    Reader (List Char ⊕ List Char) := do
  match ← peek with
  | none => mismatch what []
  | some c =>
    if c = quote then
      if manyLines then
        let quotes ← takeWhile (· == quote)
        if quotes.length < 3 then return .inl (quotes ++ done)
        if 5 < quotes.length then mismatch what []
        return .inr (quotes.drop 3 ++ done).reverse
      else
        eat 1
        return .inr done.reverse
    else if c = '\\' ∧ escapes then
      eat 1
      if manyLines then
        if ← foldedLine then return .inl done
      return .inl ((← escaped) :: done)
    else if isPlain c then
      eat 1
      return .inl (c :: done)
    else if manyLines then
      if ← newline then return .inl ('\n' :: done)
      mismatch what []
    else mismatch what []

def lineText (quote : Char) : Reader String := do
  eat 1
  let escapes : Bool := quote = '"'
  let what := if escapes then "basic string" else "literal string"
  return String.ofList (← loop (textStep what quote escapes false) [])

/-- Reads a string. A line end right behind three quotes is passed over. -/
def text (quote : Char) : Reader String := do
  if ← accept [quote, quote, quote] then
    discard newline
    let escapes : Bool := quote = '"'
    let what := if escapes then "multiline basic string" else "multiline literal string"
    return String.ofList (← loop (textStep what quote escapes true) [])
  else lineText quote

def isKeyChar (c : Char) : Bool := c.isAlphanum || c == '_' || c == '-'

def key : Reader Key := do
  let (span, name) ← spanned do
    match ← peek with
    | some '"' => lineText '"'
    | some '\'' => lineText '\''
    | _ =>
      let name ← takeWhile isKeyChar
      if name = [] then mismatch "key" []
      return String.ofList name
  return ⟨name, span⟩

/-- How deep values and keys may be nested. -/
def levelLimit : Nat := 80

/-- Reads keys with dots between them: those on the way, and the last one. There are fewer than `limit`. -/
def keys (limit : Nat) : Reader (List Key × Key) := do
  let path ← loop (fun (done : List Key) => do
    blanks
    let k ← key
    blanks
    if ← accept ['.'] then return .inl (done ++ [k])
    return .inr (done, k)) []
  if limit ≤ path.1.length + 1 then refuse .tooDeep
  return path

end ChainHead.Toml.Reader
