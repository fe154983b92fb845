import ChainHead.Json.Value
import ChainHead.Text.Hex

/-! Codecs: a reader and a writer for the JSON form of one type. Numbers travel as decimal strings,
byte strings as hexadecimal strings; both readers also take the plain JSON form of the same thing. -/

namespace ChainHead.Wire

open Json

/-- How the values of a type are read from JSON, at most so many levels deep, and written to it. -/
structure Codec (α : Type) where
  read : Nat → Reader α
  write : α → List Char

def Codec.decode {α : Type} (c : Codec α) (bytes : List UInt8) : Except Failure α :=
  Reader.run c.read bytes

/-- What a type makes of values whose form decides: it names what it expects, judges numbers and
strings, and may read the inside of a list. Every other form is refused. -/
structure Forms (α : Type) where
  expected : String
  number : Number → Except Reason α
  text : String → Except Reason α
  list : Nat → Reader α

def judged {α : Type} : Except Reason α → Reader α
  | .ok a => pure a
  | .error reason => Reader.refuseValue reason

/-- Reads a value by its form. A refused list or record is read up to its first item. -/
def readForm {α : Type} (forms : Forms α) (levels : Nat) : Reader α := Reader.located do
  match ← Reader.ahead with
  | none => Reader.refuseNext .endInValue
  | some 0x22 => do
    Reader.eat
    judged (forms.text (← Reader.text))
  | some 0x2d => do
    Reader.eat
    judged (forms.number (← Reader.number false))
  | some 0x5b => Reader.listOf levels forms.list
  | some 0x7b =>
    Reader.recordOf levels fun _ => Reader.refuseValue (.wrongForm "map" forms.expected)
  | some b =>
    if 0x30 ≤ b && b ≤ 0x39 then do
      judged (forms.number (← Reader.number true))
    else Reader.unexpected forms.expected

def wrongNumber {α : Type} (expected : String) (n : Number) : Except Reason α :=
  .error (.wrongForm n.describe expected)

/-- Text, as a JSON string. -/
def text : Codec String where
  read _ := Reader.located do
    match ← Reader.ahead with
    | none => Reader.refuseNext .endInValue
    | some 0x22 => do
      Reader.eat
      Reader.text
    | some _ => Reader.unexpected "a string"
  write t := writeText t.toList

def flag : Codec Bool where
  read _ := Reader.located do
    match ← Reader.ahead with
    | none => Reader.refuseNext .endInValue
    | some 0x74 => do
      Reader.eat
      Reader.word [0x72, 0x75, 0x65]
      pure true
    | some 0x66 => do
      Reader.eat
      Reader.word [0x61, 0x6c, 0x73, 0x65]
      pure false
    | some _ => Reader.unexpected "a boolean"
  write := writeBool

def quotedExpected : String := "a quoted or unquoted integer"

/-- A number below 2 ^ 64, as a string of decimal digits. A plain JSON integer is read, too. -/
def quoted : Codec UInt64 where
  read := readForm
    { expected := quotedExpected
      number
        | .natural n => .ok n
        | n => wrongNumber quotedExpected n
      text t :=
        match Numeral.read t.toList with
        | .ok n => .ok n
        | .error fault => .error (.unreadable fault.message)
      list _ := Reader.refuseValue (.wrongForm "sequence" quotedExpected) }
  write n := '"' :: Numeral.digits n.toNat ++ ['"']

def byte : Reader UInt8 := Reader.located do
  let judge (n : Number) : Except Reason UInt8 :=
    match n with
    | .natural k =>
      if k < 256 then .ok k.toUInt8 else .error (.wrongValue n.describe "u8")
    | .negative _ => .error (.wrongValue n.describe "u8")
    | .real _ => wrongNumber "u8" n
  match ← Reader.ahead with
  | none => Reader.refuseNext .endInValue
  | some 0x2d => do
    Reader.eat
    judged (judge (← Reader.number false))
  | some b =>
    if 0x30 ≤ b && b ≤ 0x39 then do
      judged (judge (← Reader.number true))
    else Reader.unexpected "u8"

/-- Reads `size` bytes of a list behind `index` bytes. -/
def bytesFrom (refusal : Nat → Reason) : Nat → Nat → Reader (List UInt8)
  | _, 0 => pure []
  | index, size + 1 => do
    if ← Reader.nextItem (index == 0) then do
      let b ← byte
      return b :: (← bytesFrom refusal (index + 1) size)
    else Reader.refuseValue (refusal index)

/-- Reads a list of exactly `size` bytes behind its opening. One more byte is refused, but any other
value in its place is passed over as far as it was read. -/
def sizedBytes (size : Nat) : Reader (List UInt8) := do
  let refusal (found : Nat) : Reason :=
    .wrongLength found ("exactly " ++ toString size ++ " bytes")
  let bytes ← bytesFrom refusal 0 size
  let more : Reader Bool := do
    if ← Reader.nextItem (size == 0) then do
      discard byte
      pure true
    else pure false
  match ← Reader.attempt more with
  | .ok true => Reader.refuseValue (refusal (size + 1))
  | _ => pure bytes

def fixedExpected (size : Nat) : String :=
  toString size ++ " bytes, represented as a hex string of length " ++ toString (size * 2) ++
    ", an array of u8, or raw bytes"

/-- Exactly `size` bytes. -/
def exactly (size : Nat) (bytes : List UInt8) : Option (Vector UInt8 size) :=
  if h : bytes.length = size then some ⟨bytes.toArray, by simpa using h⟩ else none

/-- A byte string of a fixed size, as a hexadecimal string. A list of its bytes is read, too. -/
def fixed (size : Nat) : Codec (Vector UInt8 size) where
  read := readForm
    { expected := fixedExpected size
      number := wrongNumber (fixedExpected size)
      text t :=
        match Hex.decodeSized size t with
        | .ok bytes =>
          match exactly size bytes with
          | some v => .ok v
          | none => .error (.unreadable Hex.Fault.wrongLength.message)
        | .error fault => .error (.unreadable fault.message)
      list _ := do
        match exactly size (← sizedBytes size) with
        | some v => pure v
        | none => Reader.refuseValue (.unreadable Hex.Fault.wrongLength.message) }
  write v := '"' :: Hex.encode v.toList ++ ['"']

def blobExpected : String :=
  "a variable number of bytes represented as a hex string, an array of u8, or raw bytes"

/-- A byte string of any size, as a hexadecimal string. A list of its bytes is read, too. -/
def blob : Codec (List UInt8) where
  read := readForm
    { expected := blobExpected
      number := wrongNumber blobExpected
      text t :=
        match Hex.decode t with
        | .ok bytes => .ok bytes
        | .error _ => .error (.wrongValue ("string " ++ Quoted.text t) "a valid hex string")
      list _ := Reader.items byte }
  write bytes := '"' :: Hex.encode bytes ++ ['"']

/-- Any JSON value, kept as it is. -/
def anything : Codec Value where
  read := Reader.value
  write := Value.write

variable {α : Type}

def optional (c : Codec α) : Codec (Option α) where
  read levels := do
    match ← Reader.ahead with
    | some 0x6e => do
      Reader.eat
      Reader.word [0x75, 0x6c, 0x6c]
      pure none
    | _ => some <$> c.read levels
  write
    | none => writeNull
    | some a => c.write a

def separated : List (List Char) → List Char
  | [] => []
  | t :: rest => t ++ rest.flatMap (',' :: ·)

def list (c : Codec α) : Codec (List α) where
  read levels := Reader.located do
    match ← Reader.ahead with
    | none => Reader.refuseNext .endInValue
    | some 0x5b => Reader.listOf levels fun inner => Reader.items (c.read inner)
    | some _ => Reader.unexpected "a sequence"
  write items := '[' :: separated (items.map c.write) ++ [']']

/-- The same form for another type. A string read is normalised by `make`. -/
def viaText (make : String → α) (text : α → String) : Codec α where
  read levels := make <$> Wire.text.read levels
  write a := Wire.text.write (text a)

end ChainHead.Wire
