import ChainHead.Json.Text

/-! Passing over a value that nobody wants. Only its grammar is checked: not the range of numbers, not
the characters of strings, and not the depth, for which a stack of the open lists and records is kept
instead of recursion. -/

namespace ChainHead.Json

inductive Frame where
  | list
  | record
deriving DecidableEq, Repr

/-- Where a passing reader stands: before a value, or inside the innermost open frame, behind a value
or right behind its opening. -/
inductive SkipState where
  | value (frames : List Frame)
  | inside (frame : Frame) (outer : List Frame) (behindValue : Bool)

namespace Reader

/-- Passes over an exponent, from its letter on. -/
def skipExponent : Reader Unit := do
  eat
  discard exponentMark
  match ← next with
  | some b => if 0x30 ≤ b && b ≤ 0x39 then discard digits else refuse .badNumber
  | none => refuse .badNumber
where
  /-- Passes over the sign of an exponent. -/
  exponentMark : Reader Unit := do
    match ← peek with
    | some 0x2b | some 0x2d => eat
    | _ => pure ()

def skipExponent? : Reader Unit := do
  match ← peek with
  | some 0x65 | some 0x45 => skipExponent
  | _ => pure ()

def skipFraction : Reader Unit := do
  match ← peek with
  | some 0x2e =>
    eat
    let fraction ← digits
    if fraction.isEmpty then refuseNext .badNumber else skipExponent?
  | _ => skipExponent?

def skipNumber : Reader Unit := do
  match ← next with
  | some 0x30 =>
    match ← peek with
    | some b => if 0x30 ≤ b && b ≤ 0x39 then refuseNext .badNumber else skipFraction
    | none => skipFraction
  | some b =>
    if 0x31 ≤ b && b ≤ 0x39 then do
      discard digits
      skipFraction
    else refuse .badNumber
  | none => refuse .badNumber

def skipEscape : Reader Unit := do
  match ← next with
  | none => refuse .endInText
  | some 0x75 => discard hexUnit
  | some b => if (letterEscape? b).isSome then pure () else refuse .badEscape

def skipTextStep (_ : Unit) : Reader (Unit ⊕ Unit) := do
  match ← peek with
  | none => refuse .endInText
  | some 0x22 => eat; pure (.inr ())
  | some 0x5c => eat; skipEscape; pure (.inl ())
  | some b => if b < 0x20 then refuse .controlInText else do eat; pure (.inl ())

def skipText : Reader Unit := loop skipTextStep ()

def behind : List Frame → SkipState ⊕ Unit
  | [] => .inr ()
  | frame :: outer => .inl (.inside frame outer true)

/-- Passes over a value, or over the opening of a list or record. -/
def skipValueStep (frames : List Frame) : Reader (SkipState ⊕ Unit) := do
  match ← ahead with
  | none => refuseNext .endInValue
  | some 0x6e => eat; word [0x75, 0x6c, 0x6c]; pure (behind frames)
  | some 0x74 => eat; word [0x72, 0x75, 0x65]; pure (behind frames)
  | some 0x66 => eat; word [0x61, 0x6c, 0x73, 0x65]; pure (behind frames)
  | some 0x2d => eat; skipNumber; pure (behind frames)
  | some 0x22 => eat; skipText; pure (behind frames)
  | some 0x5b => eat; pure (.inl (.inside .list frames false))
  | some 0x7b => eat; pure (.inl (.inside .record frames false))
  | some b =>
    if 0x30 ≤ b && b ≤ 0x39 then do
      skipNumber
      pure (behind frames)
    else refuseNext .noValue

def skipKey : Reader Unit := do
  match ← ahead with
  | some 0x22 =>
    eat
    skipText
    match ← ahead with
    | some 0x3a => eat
    | some _ => refuseNext .noColon
    | none => refuseNext .endInRecord
  | some _ => refuseNext .keyNotText
  | none => refuseNext .endInRecord

def Frame.closing : Frame → UInt8
  | .list => 0x5d
  | .record => 0x7d

def skipToValue (frame : Frame) : Reader Unit :=
  match frame with
  | .list => pure ()
  | .record => skipKey

/-- Passes over the end of a frame, or over what separates its values. -/
def skipInside (frame : Frame) (outer : List Frame) (behindValue : Bool) :
    Reader (SkipState ⊕ Unit) := do
  match ← ahead with
  | none => refuseNext (match frame with | .list => .endInList | .record => .endInRecord)
  | some b =>
    if b = Frame.closing frame then do
      eat
      pure (behind outer)
    else if behindValue then
      if b = 0x2c then do
        eat
        skipToValue frame
        pure (.inl (.value (frame :: outer)))
      else
        refuseNext (match frame with | .list => .noListSeparator | .record => .noRecordSeparator)
    else do
      skipToValue frame
      pure (.inl (.value (frame :: outer)))

/-- One round of passing over a value. In a list a round behind the opening reads nothing by itself,
so it goes on with the value. -/
def skipStep : SkipState → Reader (SkipState ⊕ Unit)
  | .value frames => skipValueStep frames
  | .inside frame outer behindValue => do
    match ← skipInside frame outer behindValue with
    | .inl (.value frames) => skipValueStep frames
    | other => pure other

def skip : Reader Unit := loop skipStep (.value [])

end Reader

end ChainHead.Json
