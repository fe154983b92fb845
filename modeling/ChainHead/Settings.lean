import ChainHead.Files
import ChainHead.Json.Value
import ChainHead.Toml.Document
import ChainHead.Url.Reference

/-! Settings. A TOML document names the beacon node and may set the times to wait and the room for head
events; what it leaves out has a default, and what it does not know it passes over. Of several wrong members
the first one in the document is reported, and a missing one only if there is none. -/

namespace ChainHead

structure NodeSettings where
  name : String
  url : Url
deriving DecidableEq

/-- The settings. Times are in milliseconds, and there is room for at least one head event. -/
structure Settings where
  node : NodeSettings
  requestTimeout : UInt64
  validatorsTimeout : UInt64
  reconnectDelay : UInt64
  headEventBuffer : UInt64
  buffer_pos : 0 < headEventBuffer
deriving DecidableEq

namespace Settings

/-- The time for a request, unless it is set. -/
def defaultRequestTimeout : UInt64 := 5000

/-- The time for the validator set, unless it is set. -/
def defaultValidatorsTimeout : UInt64 := 60000

/-- The time before another connection, unless it is set. -/
def defaultReconnectDelay : UInt64 := 1000

/-- The room for head events, unless it is set. -/
def defaultHeadEventBuffer : UInt64 := 64

inductive Fault where
  | unreadable (path : String) (fault : Files.Fault)
  | document (text : String) (fault : Toml.Fault)
  | noBuffer
deriving DecidableEq

/-- What is wrong with a value. One that stands at no place of its own is reported at its key. -/
structure Complaint where
  reason : Toml.Reason
  span : Option Toml.Span
deriving DecidableEq

open Toml (Node Entries get?)

def wrongForm {α : Type} (n : Node) (expected : String) : Except Complaint α :=
  .error ⟨.wrongForm n.describe expected, n.span?⟩

def natural (expected : String) : Node → Except Complaint UInt64
  | .integer span n =>
    if 0 ≤ n then .ok n.toNat.toUInt64
    else .error ⟨.wrongValue (Node.integer span n).describe expected, some span⟩
  | n => wrongForm n expected

def text : Node → Except Complaint String
  | .text _ t => .ok t
  | n => wrongForm n "a string"

def url [Url.Idna] : Node → Except Complaint Url
  | .text span t =>
    match Url.read t with
    | .ok u => .ok u
    | .error fault => .error ⟨.unreadable (fault.message ++ ": " ++ Quoted.text t), some span⟩
  | n => wrongForm n "a string representing an URL"

/-- The complaint of a result, placed at a key if it has no place. -/
def complaint? {α : Type} (key : Toml.Key) : Except Complaint α → Option Complaint
  | .ok _ => none
  | .error c => some { c with span := some (c.span.getD key.span) }

def required {α : Type} (span : Option Toml.Span) (entries : Entries) (name : String)
    (read : Node → Except Complaint α) : Except Complaint α :=
  match get? entries name with
  | none => .error ⟨.missing name, span⟩
  | some n => read n

def optional {α : Type} (entries : Entries) (name : String) (read : Node → Except Complaint α)
    (standard : α) : Except Complaint α :=
  match get? entries name with
  | none => .ok standard
  | some n => read n

def nodeMember? [Url.Idna] : Toml.Key × Node → Option Complaint
  | (key, n) =>
    if key.name = "name" then complaint? key (text n)
    else if key.name = "url" then complaint? key (url n)
    else none

def nodeOfEntries [Url.Idna] (span : Option Toml.Span) (entries : Entries) : Except Complaint NodeSettings := do
  if let some c := entries.findSome? nodeMember? then throw c
  let name ← required span entries "name" text
  let url ← required span entries "url" url
  return ⟨name, url⟩

/-- A beacon node in a list: its name, its URL, and anything behind them. -/
def nodeOfItems [Url.Idna] (span : Option Toml.Span) (items : List Node) : Except Complaint NodeSettings :=
  let missing (found : Nat) : Except Complaint NodeSettings :=
    .error ⟨.wrongLength found "struct BeaconEndpoint with 2 elements", span⟩
  match items with
  | [] => missing 0
  | [first] => do
    discard (text first)
    missing 1
  | first :: second :: _ => do
    return ⟨← text first, ← url second⟩

/-- A beacon node. A date has members, too, but none that counts. -/
def nodeOf [Url.Idna] : Node → Except Complaint NodeSettings
  | .list span items => nodeOfItems (some span) items
  | .tables span items => nodeOfItems span items
  | .table _ span entries => nodeOfEntries span entries
  | .moment span => nodeOfEntries (some span) []
  | n => wrongForm n "struct BeaconEndpoint"

def member? [Url.Idna] : Toml.Key × Node → Option Complaint
  | (key, n) =>
    if key.name = "beacon_node" then complaint? key (nodeOf n)
    else if key.name ∈ ["request_timeout_ms", "validators_timeout_ms", "reconnect_delay_ms"] then
      complaint? key (natural "u64" n)
    else if key.name = "head_event_buffer" then complaint? key (natural "usize" n)
    else none

/-- The settings of a document, but for the room for head events, which may still be none. -/
def ofDocument [Url.Idna] (d : Toml.Document) :
    Except Complaint (NodeSettings × UInt64 × UInt64 × UInt64 × UInt64) := do
  if let some c := d.entries.findSome? member? then throw c
  let node ← required (some d.span) d.entries "beacon_node" nodeOf
  let request ← optional d.entries "request_timeout_ms" (natural "u64") defaultRequestTimeout
  let validators ← optional d.entries "validators_timeout_ms" (natural "u64") defaultValidatorsTimeout
  let reconnect ← optional d.entries "reconnect_delay_ms" (natural "u64") defaultReconnectDelay
  let buffer ← optional d.entries "head_event_buffer" (natural "usize") defaultHeadEventBuffer
  return (node, request, validators, reconnect, buffer)

def read [Url.Idna] (t : String) : Except Fault Settings := do
  match Toml.Document.read t with
  | .error fault => throw (.document t fault)
  | .ok d =>
    match ofDocument d with
    | .error c => throw (.document t ⟨c.reason, c.span.getD d.span⟩)
    | .ok (node, request, validators, reconnect, buffer) =>
      if h : 0 < buffer then return ⟨node, request, validators, reconnect, buffer, h⟩
      else throw .noBuffer

/-- The settings in a file, as far as it could be read. -/
def ofFile [Url.Idna] (path : String) (content : Except Files.Fault (List UInt8)) : Except Fault Settings :=
  match content with
  | .error fault => .error (.unreadable path fault)
  | .ok bytes =>
    match Utf8.decode? bytes with
    | none => .error (.unreadable path .notText)
    | some chars => read (String.ofList chars)

def load [Url.Idna] (folder : Files.Folder) (path : String) : Except Fault Settings :=
  ofFile path (Files.read folder path)

def json (s : Settings) : String :=
  let pair (key : String) (value : List Char) : List Char :=
    Json.writeText key.toList ++ ':' :: value
  let number (n : UInt64) : List Char := Numeral.digits n.toNat
  let record (pairs : List (List Char)) : List Char :=
    '\x7b' :: List.intercalate [','] pairs ++ ['\x7d']
  String.ofList (record
    [pair "beacon_node" (record
      [pair "name" (Json.writeText s.node.name.toList),
        pair "url" (Json.writeText s.node.url.text.toList)]),
      pair "request_timeout_ms" (number s.requestTimeout),
      pair "validators_timeout_ms" (number s.validatorsTimeout),
      pair "reconnect_delay_ms" (number s.reconnectDelay),
      pair "head_event_buffer" (number s.headEventBuffer)])

end Settings

end ChainHead
