import ChainHead.Stream.Fault

/-! Lines of an event stream and what a line says. Lines end in a line feed, in a carriage return, or in both;
the two of them may come in different chunks. A line is a comment, or a field with a name and a value. -/

namespace ChainHead.Stream

/-- Lines cut so far: the finished ones, the bytes of the unfinished one, of which the last one stands first,
and whether a carriage return came last, so that a line feed right behind it ends nothing. -/
structure Lines where
  done : List (List UInt8) := []
  tail : List UInt8 := []
  afterReturn : Bool := false
deriving DecidableEq, Repr

def Lines.push (l : Lines) (b : UInt8) : Lines :=
  if b = 0x0a then
    if l.afterReturn then { l with afterReturn := false }
    else ⟨l.done ++ [l.tail.reverse], [], false⟩
  else if b = 0x0d then ⟨l.done ++ [l.tail.reverse], [], true⟩
  else ⟨l.done, b :: l.tail, false⟩

inductive Line where
  | blank
  | comment
  | field (name value : String)
deriving DecidableEq, Repr

def text? (blame : Utf8.Fault → EventFault) (bytes : List UInt8) : Except EventFault String :=
  match Utf8.fault? bytes with
  | some fault => .error (blame fault)
  | none => .ok (String.ofList (Utf8.decodeLossy bytes))

/-- The bytes before the first colon, and those behind it if there is one. -/
def atColon : List UInt8 → List UInt8 × Option (List UInt8)
  | [] => ([], none)
  | b :: rest =>
    if b = 0x3a then ([], some rest)
    else
      let (name, value) := atColon rest
      (b :: name, value)

def unspaced : List UInt8 → List UInt8
  | 0x20 :: rest => rest
  | value => value

/-- Reads a line. A line that begins with a colon is a comment, and so is a field of that name. -/
def Line.read (bytes : List UInt8) : Except EventFault Line :=
  match atColon bytes with
  | ([], none) => .ok .blank
  | ([], some rest) => do
    discard (text? .badValue rest)
    return .comment
  | (name, rest) => do
    let name ← text? .badKey name
    let value ← text? .badValue (unspaced (rest.getD []))
    return if name = "comment" then .comment else .field name value

end ChainHead.Stream
