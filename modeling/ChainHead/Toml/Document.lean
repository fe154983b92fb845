import ChainHead.Toml.Value

/-! Documents. A document is a table whose members come first, followed by sections, each below a header. A
section is read as a whole before it is put in its place. A header of single brackets opens a table, once; one
of double brackets opens one more table of a list. -/

namespace ChainHead.Toml

/-- A whole document: its members, and the place from its begin to the last value before any header. -/
structure Document where
  span : Span
  entries : Entries

/-- The section being read: where it belongs, whether it is one of a list, and what it holds so far. -/
structure Section where
  path : List Key
  many : Bool
  span : Span
  entries : Entries

/-- A document of which some sections are finished. The first section is the document itself, and
`whole` is its place. -/
structure Draft where
  whole : Span
  done : Entries
  current : Section

def across (items : List Node) : Option Span := do
  let first ← items.head?.bind Node.span?
  let last ← items.getLast?.bind Node.span?
  return ⟨first.start, last.stop⟩

def taken (path : List Key) : Flaw :=
  .repeatedKey ((path.getLast?.map (·.name)).getD "") (some (path.dropLast.map (·.name)))

def Section.place (s : Section) (key : Key) : Change := fun _ entries =>
  let node : Node := .table .header (some s.span) s.entries
  if s.many then
    match get? entries key.name with
    | some (.tables _ items) =>
      .ok (put key (.tables (across (items ++ [node])) (items ++ [node])) entries)
    | _ => .error (taken s.path)
  else if (get? entries key.name).isSome then .error (taken s.path)
  else .ok (put key node entries)

def Draft.close (d : Draft) : Except Flaw Entries :=
  match d.current.path.getLast? with
  | none => .ok d.current.entries
  | some key => descend false (d.current.place key) d.current.path.dropLast .header d.done

/-- The members that a section of this name starts with, and the members of its parent without it. -/
def openTable (path : List Key) (key : Key) (entries : Entries) : Except Flaw (Entries × Entries) :=
  match get? entries key.name with
  | none => .ok ([], entries)
  | some (.table .way _ inner) => .ok (inner, without entries key.name)
  | some _ => .error (taken path)

def reach : List Key → Entries → Entries
  | [], entries => entries
  | key :: path, entries =>
    match get? entries key.name with
    | some (.table _ _ inner) => reach path inner
    | some (.tables _ items) =>
      match items.getLast? with
      | some (.table _ _ inner) => reach path inner
      | _ => []
    | _ => []

def Draft.openSection (d : Draft) (many : Bool) (path : List Key) (key : Key) (span : Span) :
    Except Flaw Draft := do
  let closed ← d.close
  let name := path ++ [key]
  if many then
    let announce : Change := fun _ entries =>
      match get? entries key.name with
      | none => .ok (put key (.tables none []) entries)
      | some (.tables _ _) => .ok entries
      | some _ => .error (taken name)
    let done ← descend false announce path .header closed
    return ⟨d.whole, done, ⟨name, true, span, []⟩⟩
  let done ← descend false (fun _ entries => do return (← openTable name key entries).2) path .header closed
  let (inner, _) ← openTable name key (reach path closed)
  return ⟨d.whole, done, ⟨name, false, span, inner⟩⟩

/-- Adds a member to the current section, which then reaches up to the end of its value. -/
def Draft.add (d : Draft) (path : List Key) (key : Key) (value : Node) : Except Flaw Draft := do
  let s := d.current
  let stop := (value.span?.map (·.stop)).getD s.span.stop
  let entries ← addDotted (some s.path) path key value .header s.entries
  let span : Span := ⟨s.span.start, stop⟩
  return {
    d with
    whole := if s.path = [] then span else d.whole
    current := { s with span := span, entries := entries } }

namespace Reader

def header (limit : Nat) : Reader (Bool × List Key × Key) := do
  let many ← accept ['[']
  let (path, key) ← keys limit
  let closing := if many then [']', ']'] else [']']
  if !(← accept closing) then
    if many then mismatch "table header" ["`.`", "`]]`"] else mismatch "table header" ["`.`", "`]`"]
  return (many, path, key)

def statement (limit : Nat) (d : Draft) : Reader Draft := do
  if ← sees ['['] then
    let (span, many, path, key) ← spanned do
      eat 1
      header limit
    lineRest
    lift span (d.openSection many path key span)
  else
    let (span, path, key, item) ← spanned (member limit (value limit (limit - 1)))
    lineRest
    lift span (d.add path key item)

def lineStep (limit : Nat) (d : Draft) : Reader (Draft ⊕ Draft) := do
  blanks
  match ← peek with
  | none => return .inr d
  | some '#' =>
    comment
    lineEnd
    return .inl d
  | some c =>
    if c = '\n' ∨ c = '\r' then
      if ← newline then return .inl d
      refuse (.mismatch none ["newline"])
    else return .inl (← statement limit d)

def document (limit : Nat) : Reader Document := do
  discard (accept ['\ufeff'])
  let d ← loop (lineStep limit) ⟨⟨0, 0⟩, [], ⟨[], false, ⟨0, 0⟩, []⟩⟩
  return ⟨d.whole, ← lift ⟨0, 0⟩ d.close⟩

end Reader

/-- Reads a document in which values and keys are nested less deep than `limit`. -/
def Document.readWithin (limit : Nat) (text : String) : Except Fault Document := do
  return (← (Reader.document limit).run ⟨0, text.toList⟩).1

def Document.read (text : String) : Except Fault Document :=
  Document.readWithin Reader.levelLimit text

end ChainHead.Toml
