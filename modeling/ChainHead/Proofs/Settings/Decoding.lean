import ChainHead.Proofs.Toml.Nesting
import ChainHead.Settings

/-! What settings a document gives. A document decodes to settings if it names a node by two texts, of which the second
is a URL, and if each of the four numbers is left out or written as one that is not negative. Nothing else of the
document matters: neither the order of its members, nor members of other names, nor how a table is written. -/

namespace ChainHead

namespace Toml.Node

def text? : Node → Option String
  | .text _ value => some value
  | _ => none

def integer? : Node → Option Int
  | .integer _ value => some value
  | _ => none

def items? : Node → Option (List Node)
  | .list _ items | .tables _ items => some items
  | _ => none

/-- The name and the URL of a node, both as they are written: members of a table, or the first two items of a list. -/
def nameAndUrl? : Node → Option (String × String)
  | .table _ _ entries => do
    return (← (get? entries "name").bind text?, ← (get? entries "url").bind text?)
  | .list _ (first :: second :: _) | .tables _ (first :: second :: _) => do
    return (← first.text?, ← second.text?)
  | _ => none

theorem nameAndUrl?_of_items {n first second : Node} {rest : List Node}
    (h : n.items? = some (first :: second :: rest)) :
    n.nameAndUrl? = first.text?.bind fun name => second.text?.map fun url => (name, url) := by
  cases n with
  | list span items =>
      cases h
      cases hfirst : first.text? <;> cases hsecond : second.text? <;> simp [nameAndUrl?, hfirst, hsecond]
  | tables span items =>
      cases h
      cases hfirst : first.text? <;> cases hsecond : second.text? <;> simp [nameAndUrl?, hfirst, hsecond]
  | _ => cases h

end Toml.Node

namespace Settings

open Toml (Node Entries get? names TidyEntries exists_of_bind_ok)

/-- What a document has written about the settings: two texts that name a node, and integers. A number may be left out,
and may be something else than an integer. -/
structure Written where
  node : Option (String × String)
  request : Option (Option Int)
  validators : Option (Option Int)
  reconnect : Option (Option Int)
  buffer : Option (Option Int)
deriving DecidableEq

def Written.of (entries : Entries) : Written where
  node := (get? entries "beacon_node").bind Node.nameAndUrl?
  request := (get? entries "request_timeout_ms").map Node.integer?
  validators := (get? entries "validators_timeout_ms").map Node.integer?
  reconnect := (get? entries "reconnect_delay_ms").map Node.integer?
  buffer := (get? entries "head_event_buffer").map Node.integer?

/-- A number is the one that is written, or the standard one if none is. -/
inductive Given (standard : UInt64) : Option (Option Int) → UInt64 → Prop
  | standard : Given standard none standard
  | written (value : UInt64) : Given standard (some (some (value.toNat : Int))) value

/-- What is written are settings. -/
structure Decodes [Url.Idna] (w : Written) (node : NodeSettings) (request validators reconnect buffer : UInt64) :
    Prop where
  node : ∃ url, w.node = some (node.name, url) ∧ Url.read url = .ok node.url
  request : Given 5000 w.request request
  validators : Given 60000 w.validators validators
  reconnect : Given 1000 w.reconnect reconnect
  buffer : Given 64 w.buffer buffer

variable {entries : Entries} {n : Node} {value standard : UInt64} {expected name : String} {α : Type}

/-! ### Members -/

theorem text_eq_ok_iff {t : String} : text n = .ok t ↔ n.text? = some t := by
  cases n <;> simp [text, Node.text?, wrongForm]

theorem url_eq_ok_iff [Url.Idna] {u : Url} : url n = .ok u ↔ ∃ t, n.text? = some t ∧ Url.read t = .ok u := by
  cases n with
  | text span t => cases hread : Url.read t <;> simp [url, Node.text?, hread]
  | _ => simp [url, Node.text?, wrongForm]

theorem natural_eq_ok_iff (hn : n.Tidy) : natural expected n = .ok value ↔ n.integer? = some (value.toNat : Int) := by
  cases hn with
  | @integer span i hlow hhigh =>
      rw [natural, Node.integer?, Option.some.injEq]
      split_ifs with hsign
      · -- it fits 63 bits, so nothing is cut off
        have hsize : i.toNat.toUInt64.toNat = i.toNat := UInt64.toNat_ofNat_of_lt (by simp only [UInt64.size]; omega)
        rw [Except.ok.injEq, ← UInt64.toNat_inj, hsize]
        omega
      · constructor
        · intro hnatural
          cases hnatural
        · omega
  | _ => simp [natural, Node.integer?, wrongForm]

theorem given_none_iff : Given standard none value ↔ value = standard := by
  constructor
  · rintro ⟨⟩
    rfl
  · rintro rfl
    exact .standard

theorem given_some_iff {written : Option Int} :
    Given standard (some written) value ↔ written = some (value.toNat : Int) := by
  constructor
  · rintro ⟨⟩
    rfl
  · rintro rfl
    exact .written value

theorem optional_eq_ok_iff (h : TidyEntries entries) : optional entries name (natural expected) standard = .ok value ↔
    Given standard ((get? entries name).map Node.integer?) value := by
  rw [optional]
  cases hget : get? entries name with
  | none =>
      rw [Option.map_none, Except.ok.injEq, given_none_iff, eq_comm]
  | some n => exact (natural_eq_ok_iff (h.get? hget)).trans given_some_iff.symm

theorem required_eq_ok_iff {span : Option Toml.Span} {read : Node → Except Complaint α} {a : α} :
    required span entries name read = .ok a ↔ ∃ n, get? entries name = some n ∧ read n = .ok a := by
  rw [required]
  cases get? entries name <;> simp

theorem complaint?_eq_none_iff {key : Toml.Key} {r : Except Complaint α} :
    complaint? key r = none ↔ ∃ a, r = .ok a := by
  cases r <;> simp [complaint?]

/-! ### The node -/

theorem nodeMember?_eq_none [Url.Idna] {key : Toml.Key} {t u : String} {n m : Node} {address : Url}
    (hnodup : (names entries).Nodup) (hn : get? entries "name" = some n) (hname : n.text? = some t)
    (hm : get? entries "url" = some m) (htext : m.text? = some u) (hurl : Url.read u = .ok address) {other : Node}
    (hmem : (key, other) ∈ entries) : nodeMember? (key, other) = none := by
  have hget := Toml.get?_of_mem hnodup hmem
  rw [nodeMember?]
  split_ifs with hkey hkey
  · rw [hkey] at hget
    cases hn.symm.trans hget
    exact complaint?_eq_none_iff.mpr ⟨t, text_eq_ok_iff.mpr hname⟩
  · rw [hkey] at hget
    cases hm.symm.trans hget
    exact complaint?_eq_none_iff.mpr ⟨address, url_eq_ok_iff.mpr ⟨u, htext, hurl⟩⟩
  · rfl

theorem nodeOfEntries_eq_ok_iff [Url.Idna] (hnodup : (names entries).Nodup) {span : Option Toml.Span}
    {node : NodeSettings} :
    nodeOfEntries span entries = .ok node ↔ ∃ n m u, get? entries "name" = some n ∧ n.text? = some node.name ∧
      get? entries "url" = some m ∧ m.text? = some u ∧ Url.read u = .ok node.url := by
  rw [nodeOfEntries]
  constructor
  · intro h
    split at h
    · cases h
    · obtain ⟨name, hname, h⟩ := exists_of_bind_ok h
      obtain ⟨url, hurl, h⟩ := exists_of_bind_ok h
      cases h
      obtain ⟨n, hn, hname⟩ := required_eq_ok_iff.mp hname
      obtain ⟨m, hm, hurl⟩ := required_eq_ok_iff.mp hurl
      obtain ⟨u, htext, hurl⟩ := url_eq_ok_iff.mp hurl
      exact ⟨n, m, u, hn, text_eq_ok_iff.mp hname, hm, htext, hurl⟩
  · rintro ⟨n, m, u, hn, hname, hm, htext, hurl⟩
    have hcheck : entries.findSome? nodeMember? = none :=
      List.findSome?_eq_none_iff.mpr fun entry hmem => nodeMember?_eq_none hnodup hn hname hm htext hurl hmem
    have hfirst : required span entries "name" text = .ok node.name :=
      required_eq_ok_iff.mpr ⟨n, hn, text_eq_ok_iff.mpr hname⟩
    have hsecond : required span entries "url" url = .ok node.url :=
      required_eq_ok_iff.mpr ⟨m, hm, url_eq_ok_iff.mpr ⟨u, htext, hurl⟩⟩
    rw [hcheck, hfirst, hsecond]
    rfl

theorem nodeOfItems_eq_ok_iff [Url.Idna] {span : Option Toml.Span} {items : List Node} {node : NodeSettings} :
    nodeOfItems span items = .ok node ↔ ∃ first second rest u, items = first :: second :: rest ∧
      first.text? = some node.name ∧ second.text? = some u ∧ Url.read u = .ok node.url := by
  rcases items with - | ⟨first, - | ⟨second, rest⟩⟩
  · simp [nodeOfItems]
  · constructor
    · intro h
      obtain ⟨_, _, h⟩ := exists_of_bind_ok h
      cases h
    · simp
  · constructor
    · intro h
      obtain ⟨name, hname, h⟩ := exists_of_bind_ok h
      obtain ⟨url, hurl, h⟩ := exists_of_bind_ok h
      cases h
      obtain ⟨u, htext, hurl⟩ := url_eq_ok_iff.mp hurl
      exact ⟨first, second, rest, u, rfl, text_eq_ok_iff.mp hname, htext, hurl⟩
    · rintro ⟨_, _, _, u, heq, hname, htext, hurl⟩
      cases heq
      rw [nodeOfItems, text_eq_ok_iff.mpr hname, url_eq_ok_iff.mpr ⟨u, htext, hurl⟩]
      rfl

theorem nameAndUrl?_table {origin : Toml.Origin} {span : Option Toml.Span} {t u : String} :
    (Node.table origin span entries).nameAndUrl? = some (t, u) ↔ ∃ n m, get? entries "name" = some n ∧
      n.text? = some t ∧ get? entries "url" = some m ∧ m.text? = some u := by
  rw [Node.nameAndUrl?]
  constructor
  · intro h
    obtain ⟨_, hfirst, h⟩ := Option.bind_eq_some_iff.mp h
    obtain ⟨_, hsecond, h⟩ := Option.bind_eq_some_iff.mp h
    cases h
    obtain ⟨n, hn, hname⟩ := Option.bind_eq_some_iff.mp hfirst
    obtain ⟨m, hm, htext⟩ := Option.bind_eq_some_iff.mp hsecond
    exact ⟨n, m, hn, hname, hm, htext⟩
  · rintro ⟨n, m, hn, hname, hm, htext⟩
    simp [hn, hname, hm, htext]

theorem nameAndUrl?_tables {span : Option Toml.Span} {items : List Node} {t u : String} :
    (Node.tables span items).nameAndUrl? = some (t, u) ↔ ∃ first second rest, items = first :: second :: rest ∧
      first.text? = some t ∧ second.text? = some u := by
  rcases items with - | ⟨first, - | ⟨second, rest⟩⟩
  · simp [Node.nameAndUrl?]
  · simp [Node.nameAndUrl?]
  · constructor
    · intro h
      obtain ⟨_, hname, h⟩ := Option.bind_eq_some_iff.mp h
      obtain ⟨_, htext, h⟩ := Option.bind_eq_some_iff.mp h
      cases h
      exact ⟨first, second, rest, rfl, hname, htext⟩
    · rintro ⟨_, _, _, heq, hname, htext⟩
      cases heq
      simp [Node.nameAndUrl?, hname, htext]

/-- A node is read if it names one. -/
theorem nodeOf_eq_ok_iff [Url.Idna] (hn : n.Tidy) {node : NodeSettings} :
    nodeOf n = .ok node ↔ ∃ u, n.nameAndUrl? = some (node.name, u) ∧ Url.read u = .ok node.url := by
  have hitems {span : Option Toml.Span} {items : List Node} : nodeOfItems span items = .ok node ↔
      ∃ u, (Node.tables span items).nameAndUrl? = some (node.name, u) ∧ Url.read u = .ok node.url := by
    simp only [nodeOfItems_eq_ok_iff, nameAndUrl?_tables]
    grind
  cases hn with
  | @list span items _ =>
      have hlist : (Node.list span items).nameAndUrl? = (Node.tables (some span) items).nameAndUrl? := by
        rcases items with - | ⟨first, - | ⟨second, rest⟩⟩ <;> rfl
      rw [hlist]
      exact hitems
  | tables span _ => exact hitems
  | table origin span hnodup _ =>
      rw [nodeOf, nodeOfEntries_eq_ok_iff hnodup]
      simp only [nameAndUrl?_table]
      grind
  | moment span =>
      constructor
      · intro h
        obtain ⟨_, hname, _⟩ := exists_of_bind_ok h
        cases hname
      · simp [Node.nameAndUrl?]
  | _ => simp [nodeOf, wrongForm, Node.nameAndUrl?]

/-! ### Documents -/

variable [Url.Idna] {d : Toml.Document} {node : NodeSettings} {request validators reconnect buffer : UInt64}

/-- Where the settings decode, no member is complained about. -/
theorem member?_eq_none {key : Toml.Key} (htidy : TidyEntries d.entries)
    (h : Decodes (.of d.entries) node request validators reconnect buffer) (hmem : (key, n) ∈ d.entries) :
    member? (key, n) = none := by
  have hget := Toml.get?_of_mem htidy.nodup hmem
  have hn := htidy.get? hget
  have hnumber {name expected : String} {standard value : UInt64} (hkey : key.name = name)
      (hgiven : Given standard ((get? d.entries name).map Node.integer?) value) :
      complaint? key (natural expected n) = none := by
    rw [← hkey, hget] at hgiven
    exact complaint?_eq_none_iff.mpr ⟨value, (natural_eq_ok_iff hn).mpr (given_some_iff.mp hgiven)⟩
  rw [member?]
  split_ifs with hkey hkey hkey
  · obtain ⟨u, hnames, hurl⟩ := h.node
    rw [Written.of, ← hkey, hget, Option.bind_some] at hnames
    exact complaint?_eq_none_iff.mpr ⟨node, (nodeOf_eq_ok_iff hn).mpr ⟨u, hnames, hurl⟩⟩
  · simp only [List.mem_cons, List.not_mem_nil, or_false] at hkey
    rcases hkey with hkey | hkey | hkey
    · exact hnumber hkey h.request
    · exact hnumber hkey h.validators
    · exact hnumber hkey h.reconnect
  · exact hnumber hkey h.buffer
  · rfl

theorem ofDocument_eq_ok_iff (htidy : TidyEntries d.entries) :
    ofDocument d = .ok (node, request, validators, reconnect, buffer) ↔
      Decodes (.of d.entries) node request validators reconnect buffer := by
  rw [ofDocument]
  constructor
  · intro h
    split at h
    · cases h
    · obtain ⟨node, hnode, h⟩ := exists_of_bind_ok h
      obtain ⟨request, hrequest, h⟩ := exists_of_bind_ok h
      obtain ⟨validators, hvalidators, h⟩ := exists_of_bind_ok h
      obtain ⟨reconnect, hreconnect, h⟩ := exists_of_bind_ok h
      obtain ⟨buffer, hbuffer, h⟩ := exists_of_bind_ok h
      cases h
      obtain ⟨n, hn, hnode⟩ := required_eq_ok_iff.mp hnode
      obtain ⟨u, hnames, hurl⟩ := (nodeOf_eq_ok_iff (htidy.get? hn)).mp hnode
      exact ⟨⟨u, Option.bind_eq_some_iff.mpr ⟨n, hn, hnames⟩, hurl⟩, (optional_eq_ok_iff htidy).mp hrequest,
        (optional_eq_ok_iff htidy).mp hvalidators, (optional_eq_ok_iff htidy).mp hreconnect,
        (optional_eq_ok_iff htidy).mp hbuffer⟩
  · intro h
    obtain ⟨u, hnames, hurl⟩ := h.node
    obtain ⟨n, hn, hnames⟩ := Option.bind_eq_some_iff.mp hnames
    have hcheck : d.entries.findSome? member? = none :=
      List.findSome?_eq_none_iff.mpr fun entry hmem => member?_eq_none htidy h hmem
    have hnode : required (some d.span) d.entries "beacon_node" nodeOf = .ok node :=
      required_eq_ok_iff.mpr ⟨n, hn, (nodeOf_eq_ok_iff (htidy.get? hn)).mpr ⟨u, hnames, hurl⟩⟩
    rw [hcheck, hnode, defaultRequestTimeout, (optional_eq_ok_iff htidy).mpr h.request, defaultValidatorsTimeout,
      (optional_eq_ok_iff htidy).mpr h.validators, defaultReconnectDelay, (optional_eq_ok_iff htidy).mpr h.reconnect,
      defaultHeadEventBuffer, (optional_eq_ok_iff htidy).mpr h.buffer]
    rfl

end Settings

end ChainHead
