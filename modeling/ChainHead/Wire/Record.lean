import ChainHead.Wire.Codec

/-! Records. A record type is described once, by its fields in order; the description gives the reader,
the writer and every message. A record is read from members in any order, among which unknown ones
are passed over, or from a list of its fields in order. -/

namespace ChainHead.Wire

open Json

/-- Where a field may be left out, and what it is then. -/
inductive Absence (α : Type) where
  | never
  | byName (value : α)
  | anywhere (value : α)

def Absence.byName? {α : Type} : Absence α → Option α
  | .never => none
  | .byName value => some value
  | .anywhere value => some value

def Absence.byPlace? {α : Type} : Absence α → Option α
  | .never => none
  | .byName _ => none
  | .anywhere value => some value

/-- The fields of a record, in order. The type is that of their values, as nested pairs. -/
inductive Fields : Type → Type 1 where
  | nil : Fields Unit
  | cons {α β : Type} (name : String) (codec : Codec α) (absence : Absence α) (others : Fields β) :
      Fields (α × β)

namespace Fields

def Slots : {τ : Type} → Fields τ → Type
  | _, .nil => Unit
  | _, @Fields.cons α _ _ _ _ others => Option α × others.Slots

def blank : {τ : Type} → (fs : Fields τ) → fs.Slots
  | _, .nil => ()
  | _, .cons _ _ _ others => (none, others.blank)

def names : {τ : Type} → Fields τ → List String
  | _, .nil => []
  | _, .cons name _ _ others => name :: others.names

/-- Reads the rest of a member, from its colon on. A field that has a value already is refused. -/
def readMember (levels : Nat) (key : String) :
    {τ : Type} → (fs : Fields τ) → fs.Slots → Reader fs.Slots
  | _, .nil, slots => do
    Reader.colon
    Reader.skip
    pure slots
  | _, @Fields.cons α _ name codec _ others, slots =>
    let slots : Option α × others.Slots := slots
    if key = name then
      match slots.1 with
      | some _ => Reader.refuseValue (.repeatedMember name)
      | none => do
        Reader.colon
        let a ← codec.read levels
        pure ((some a, slots.2) : Option α × others.Slots)
    else do
      let rest ← others.readMember levels key slots.2
      pure ((slots.1, rest) : Option α × others.Slots)

/-- The record of the values read, or the first field that lacks one. -/
def finish : {τ : Type} → (fs : Fields τ) → fs.Slots → Except Reason τ
  | _, .nil, _ => .ok ()
  | _, @Fields.cons α _ name _ absence others, slots => do
    let slots : Option α × others.Slots := slots
    let a ←
      match slots.1 with
      | some a => .ok a
      | none =>
        match absence.byName? with
        | some a => .ok a
        | none => .error (.missingMember name)
    return (a, ← others.finish slots.2)

def memberStep {τ : Type} (levels : Nat) (fs : Fields τ) (state : Bool × fs.Slots) :
    Reader ((Bool × fs.Slots) ⊕ fs.Slots) := do
  match ← Reader.nextKey state.1 with
  | none => pure (.inr state.2)
  | some key => do
    let slots ← fs.readMember levels key state.2
    pure (.inl (false, slots))

def readMembers {τ : Type} (levels : Nat) (fs : Fields τ) : Reader τ := do
  let slots ← Reader.loop (memberStep levels fs) (true, fs.blank)
  judged (fs.finish slots)

/-- Reads the fields in order behind the opening of a list, of which `index` are read. -/
def readItems (levels : Nat) (expected : String) :
    {τ : Type} → (fs : Fields τ) → (index : Nat) → Reader τ
  | _, .nil, _ => pure ()
  | _, .cons _ codec absence others, index => do
    let a ←
      if ← Reader.nextItem (index == 0) then codec.read levels
      else
        match absence.byPlace? with
        | some a => pure a
        | none => Reader.refuseValue (.wrongLength index expected)
    return (a, ← others.readItems levels expected (index + 1))

def writeMembers : {τ : Type} → Fields τ → τ → List (List Char)
  | _, .nil, _ => []
  | _, .cons name codec _ others, (a, rest) =>
    (writeText name.toList ++ ':' :: codec.write a) :: others.writeMembers rest

end Fields

def recordExpected (name : String) : String := "struct " ++ name

def itemsExpected (name : String) (count : Nat) : String :=
  recordExpected name ++ " with " ++ toString count ++
    (if count = 1 then " element" else " elements")

def record {α τ : Type} (name : String) (fs : Fields τ) (make : τ → α) (parts : α → τ) : Codec α where
  read levels := Reader.located do
    match ← Reader.ahead with
    | none => Reader.refuseNext .endInValue
    | some 0x5b => do
      make <$> Reader.listOf levels fun inner =>
        fs.readItems inner (itemsExpected name fs.names.length) 0
    | some 0x7b => make <$> Reader.recordOf levels fun inner => fs.readMembers inner
    | some _ => Reader.unexpected (recordExpected name)
  write a := '\x7b' :: separated (fs.writeMembers (parts a)) ++ ['\x7d']

def required {α β : Type} (name : String) (codec : Codec α) (others : Fields β) : Fields (α × β) :=
  .cons name codec .never others

def nullable {α β : Type} (name : String) (codec : Codec α) (others : Fields β) :
    Fields (Option α × β) :=
  .cons name (optional codec) (.byName none) others

def omissible {α β : Type} (name : String) (codec : Codec α) (others : Fields β) :
    Fields (Option α × β) :=
  .cons name (optional codec) (.anywhere none) others

end ChainHead.Wire
