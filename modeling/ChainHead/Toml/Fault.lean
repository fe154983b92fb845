import ChainHead.Text.Numeral
import ChainHead.Text.Utf8

/-! What can be wrong with a TOML document, where, and how it is shown. A place is a span of bytes. It is
shown by its line and column, the line itself, and marks below the line from the first character of the span
on. A fault is about the form of the document or about a value in it. -/

namespace ChainHead.Toml

/-- The bytes from `start` up to `stop`. -/
structure Span where
  start : Nat
  stop : Nat
deriving DecidableEq, Repr

/-- What a message says about a document that is not well formed. -/
inductive Flaw where
  | mismatch (what : Option String) (expected : List String)
  | repeatedKey (key : String) (table : Option (List String))
  | closedTable (key : String)
  | tooDeep
deriving DecidableEq, Repr

def Flaw.message : Flaw → String
  | .mismatch what expected =>
    let first := what.toList.map ("invalid " ++ ·)
    let second := if expected = [] then [] else ["expected " ++ String.intercalate ", " expected]
    String.intercalate "\n" (first ++ second)
  | .repeatedKey key none => "duplicate key `" ++ key ++ "`"
  | .repeatedKey key (some []) => "duplicate key `" ++ key ++ "` in document root"
  | .repeatedKey key (some table) =>
    "duplicate key `" ++ key ++ "` in table `" ++ String.intercalate "." table ++ "`"
  | .closedTable key => "dotted key `" ++ key ++ "` attempted to extend non-table type"
  | .tooDeep => "recursion limit exceeded"

/-- Why a document is refused: its form, or a value that has the wrong form, the wrong size or no
meaning, or that is missing. -/
inductive Reason where
  | flaw (f : Flaw)
  | wrongForm (found expected : String)
  | wrongValue (found expected : String)
  | wrongLength (length : Nat) (expected : String)
  | missing (key : String)
  | unreadable (text : String)
deriving DecidableEq, Repr

def Reason.message : Reason → String
  | .flaw f => f.message
  | .wrongForm found expected => "invalid type: " ++ found ++ ", expected " ++ expected
  | .wrongValue found expected => "invalid value: " ++ found ++ ", expected " ++ expected
  | .wrongLength length expected =>
    "invalid length " ++ Numeral.text length ++ ", expected " ++ expected
  | .missing key => "missing field `" ++ key ++ "`"
  | .unreadable text => text

/-- A reason, and the place it is about. -/
structure Fault where
  reason : Reason
  span : Span
deriving DecidableEq, Repr

def Fault.isFlaw (f : Fault) : Bool :=
  match f.reason with
  | .flaw _ => true
  | _ => false

/-- The bytes of the line that the last of some bytes stands on, up to that byte. -/
def lineBefore (bytes : List UInt8) : List UInt8 :=
  (bytes.reverse.takeWhile (· ≠ 0x0a)).reverse

/-- The line, counted from zero, and the column of a place. The column counts characters before the
place; behind the end of the document it counts on. -/
def locate (document : List UInt8) (index : Nat) : Nat × Nat :=
  match document with
  | [] => (0, index)
  | _ =>
    let inside := min index (document.length - 1)
    let before := document.take inside
    let onLine := lineBefore before
    let column :=
      match Utf8.decode? (onLine ++ (document.drop inside).take 1) with
      | some chars => chars.length - 1
      | none => onLine.length
    (before.count 0x0a, column + (index - inside))

def lines (document : String) : List String := document.splitOn "\n"

def times (n : Nat) (c : Char) : String := String.ofList (List.replicate n c)

def Fault.message (f : Fault) (document : String) : String :=
  let (line, column) := locate (Utf8.encode document.toList) f.span.start
  let number := Numeral.text (line + 1)
  let content := (lines document).getD line ""
  let margin := times (number.length + 1) ' ' ++ "|"
  let marks := max 1 (min (f.span.stop - f.span.start) content.utf8ByteSize)
  "TOML parse error at line " ++ number ++ ", column " ++ Numeral.text (column + 1) ++ "\n" ++
    margin ++ "\n" ++
    number ++ " | " ++ content ++ "\n" ++
    margin ++ times (column + 1) ' ' ++ times marks '^' ++ "\n" ++
    f.reason.message ++ "\n"

end ChainHead.Toml
