import ChainHead.Toml.Reader

/-! Adding to tables. A path of keys leads from a table to a table below it, which comes to be on the way if
there was none. Tables between braces are closed; a table with a header of its own is closed to dotted
keys; and a table takes members by plain keys or by dotted keys, never by both. -/

namespace ChainHead.Toml

abbrev Change := Origin → Entries → Except Flaw Entries

def changeLast (change : Change) (key : Key) (items : List Node) : Except Flaw (List Node) :=
  match items.getLast? with
  | some (.table origin span entries) => do
    return items.dropLast ++ [.table origin span (← change origin entries)]
  | _ => .error (.closedTable key.name)

def descend (dotted : Bool) (change : Change) : List Key → Change
  | [], origin, entries => change origin entries
  | key :: path, _, entries =>
    match get? entries key.name with
    | none => do
      let origin : Origin := if dotted then .dots else .way
      return put key (.table origin none (← descend dotted change path origin [])) entries
    | some (.table origin span inner) =>
      if origin = .braces then .error (.closedTable key.name)
      else if dotted ∧ origin = .header then .error (.repeatedKey key.name none)
      else do return put key (.table origin span (← descend dotted change path origin inner)) entries
    | some (.tables span items) => do
      return put key (.tables span (← changeLast (descend dotted change path) key items)) entries
    | some _ => .error (.closedTable key.name)

/-- Adds one member to a table, which stands below its section if the way to it is not empty. -/
def addMember (section? : Option (List Key)) (plain : Bool) (key : Key) (value : Node) : Change :=
  fun origin entries =>
    if (origin = .dots) = plain then .error (.repeatedKey key.name none)
    else if (get? entries key.name).isSome then
      .error (.repeatedKey key.name (section?.map fun path => path.map (·.name)))
    else .ok (entries ++ [(key, value)])

def addDotted (section? : Option (List Key)) (path : List Key) (key : Key) (value : Node) : Change :=
  descend true (addMember section? path.isEmpty key value) path

end ChainHead.Toml
