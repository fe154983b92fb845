/-! What can be wrong with a JSON text, where, and how it is said. A position counts lines from one and
the bytes before it on its line. -/

namespace ChainHead.Json

structure Position where
  line : Nat
  column : Nat
deriving DecidableEq, Repr

def Position.first : Position := ⟨1, 0⟩

def Position.after (p : Position) (b : UInt8) : Position :=
  if b = 0x0a then ⟨p.line + 1, 0⟩ else ⟨p.line, p.column + 1⟩

/-- Why a text is refused. The first group is about JSON itself, the second about a value of the
wrong form, the third about the members of a record. -/
inductive Reason where
  | endInValue
  | endInText
  | endInList
  | endInRecord
  | noColon
  | noListSeparator
  | noRecordSeparator
  | noWord
  | noValue
  | badEscape
  | badNumber
  | numberTooLarge
  | badCharacter
  | controlInText
  | keyNotText
  | loneSurrogate
  | unfinishedPair
  | trailingComma
  | trailingText
  | tooDeep
  | wrongForm (found expected : String)
  | wrongValue (found expected : String)
  | wrongLength (length : Nat) (expected : String)
  | missingMember (name : String)
  | repeatedMember (name : String)
  | unreadable (text : String)
deriving DecidableEq, Repr

def Reason.message : Reason → String
  | .endInValue => "EOF while parsing a value"
  | .endInText => "EOF while parsing a string"
  | .endInList => "EOF while parsing a list"
  | .endInRecord => "EOF while parsing an object"
  | .noColon => "expected `:`"
  | .noListSeparator => "expected `,` or `]`"
  | .noRecordSeparator => "expected `,` or `\x7d`"
  | .noWord => "expected ident"
  | .noValue => "expected value"
  | .badEscape => "invalid escape"
  | .badNumber => "invalid number"
  | .numberTooLarge => "number out of range"
  | .badCharacter => "invalid unicode code point"
  | .controlInText => "control character (\\u0000-\\u001F) found while parsing a string"
  | .keyNotText => "key must be a string"
  | .loneSurrogate => "lone leading surrogate in hex escape"
  | .unfinishedPair => "unexpected end of hex escape"
  | .trailingComma => "trailing comma"
  | .trailingText => "trailing characters"
  | .tooDeep => "recursion limit exceeded"
  | .wrongForm found expected => "invalid type: " ++ found ++ ", expected " ++ expected
  | .wrongValue found expected => "invalid value: " ++ found ++ ", expected " ++ expected
  | .wrongLength length expected =>
    "invalid length " ++ toString length ++ ", expected " ++ expected
  | .missingMember name => "missing field `" ++ name ++ "`"
  | .repeatedMember name => "duplicate field `" ++ name ++ "`"
  | .unreadable text => text

/-- A refusal. One that is about a whole value gets its place only when the reader is through with
that value. -/
structure Failure where
  reason : Reason
  position : Option Position
deriving DecidableEq, Repr

def Failure.message (f : Failure) : String :=
  match f.position with
  | none => f.reason.message
  | some p =>
    f.reason.message ++ " at line " ++ toString p.line ++ " column " ++ toString p.column

end ChainHead.Json
