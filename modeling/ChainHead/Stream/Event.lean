import ChainHead.Stream.Line

/-! Events of a stream. Fields are gathered until a blank line ends the event. Chunks of bytes come in one
by one; a chunk is cut into lines, and lines are read up to the first fault. The rest of them waits for the
next chunk, and so does what has been gathered. A fault is told before the events that were finished in its
chunk. -/

namespace ChainHead.Stream

/-- An event that is being gathered. An event without a type is a message. -/
structure Gathered where
  type : String := ""
  data : Option (List String) := none
  id : Option String := none
  retry : Option UInt64 := none
deriving DecidableEq, Repr

structure Event where
  type : String
  data : String
deriving DecidableEq, Repr

/-- The event with one more field. A field of any other name changes nothing. -/
def Gathered.add (g : Gathered) (name value : String) : Gathered :=
  if name = "event" then { g with type := value }
  else if name = "data" then { g with data := some (g.data.getD [] ++ [value]) }
  else if name = "id" then
    if value.contains '\x00' then g else { g with id := some value }
  else if name = "retry" then
    match Numeral.read value.toList with
    | .ok n => { g with retry := some n }
    | .error _ => g
  else g

/-- What a blank line makes of an event: nothing if it has no data, a fault if it has nothing at all. -/
def Gathered.finish (g : Gathered) : Except EventFault (Option Event) :=
  if g = {} then .error .emptyEvent
  else
    match g.data with
    | none => .ok none
    | some lines =>
      .ok (some
        { type := if g.type = "" then "message" else g.type
          data := String.intercalate "\n" lines })

/-- What is known between two lines: the event that is being gathered, if any, and the last identifier, with
which each event begins. -/
structure Gatherer where
  event : Option Gathered := none
  lastId : Option String := none
deriving DecidableEq, Repr

def Gatherer.push (g : Gatherer) : Line → Gatherer × Except EventFault (Option Event)
  | .comment => (g, .ok none)
  | .blank =>
    match g.event with
    | none => (g, .ok none)
    | some event => ({ g with event := none }, event.finish)
  | .field name value =>
    let before := g.event.getD { id := g.lastId }
    let event := before.add name value
    let lastId := if name = "id" ∧ !value.contains '\x00' then some value else g.lastId
    ({ event := some event, lastId }, .ok none)

/-- Reads a line and takes it in. A line that can not be read changes nothing. -/
def Gatherer.step (g : Gatherer) (line : List UInt8) : Gatherer × Except EventFault (Option Event) :=
  match Line.read line with
  | .error fault => (g, .error fault)
  | .ok line => g.push line

/-- Reads lines up to the first fault: the events, the fault, and the lines that are left. -/
def Gatherer.run (g : Gatherer) :
    List (List UInt8) → Gatherer × List Event × Option EventFault × List (List UInt8)
  | [] => (g, [], none, [])
  | line :: rest =>
    match g.step line with
    | (g, .error fault) => (g, [], some fault, rest)
    | (g, .ok event) =>
      let (g, events, fault, left) := g.run rest
      (g, event.toList ++ events, fault, left)

structure Parser where
  lines : Lines := {}
  gatherer : Gatherer := {}
deriving DecidableEq, Repr

/-- What a stream has told: an event, or what is wrong with one. -/
abbrev Told := Except EventFault Event

def Parser.feed (p : Parser) (chunk : List UInt8) : Parser × List Told :=
  let lines := chunk.foldl Lines.push p.lines
  let (gatherer, events, fault, left) := p.gatherer.run lines.done
  let told : List Told := fault.toList.map .error ++ events.map .ok
  (⟨{ lines with done := left }, gatherer⟩, told)

def Parser.ending (p : Parser) : StreamFault :=
  if p.lines.tail = [] ∧ p.lines.done = [] then .endOfBody else .unfinished

def Parser.feedAll (p : Parser) : List (List UInt8) → Parser × List Told
  | [] => (p, [])
  | chunk :: rest =>
    let (p, told) := p.feed chunk
    let (p, more) := p.feedAll rest
    (p, told ++ more)

end ChainHead.Stream
