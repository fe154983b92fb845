import ChainHead.Proofs.Settings.Acceptance
import ChainHead.Proofs.Toml.Quoted
import Mathlib

/-! What settings are independent of. Only the members that mean something to them count, in whatever order they stand,
and it does not matter how the table of the node came to be. A node has three spellings, a section, a table between
braces, and dotted keys: whatever its name and its URL are, each of these texts is a document, and the same is written
in all three. -/

namespace ChainHead

open Toml (Node Entries Document Draft TidyEntries get? quoted exists_ok_of_told)
open Toml.Reader

namespace Settings

/-! ### Documents that say the same -/

/-- The members of these names. -/
def known (names : List String) (entries : Entries) : Entries := entries.filter (·.1.name ∈ names)

/-- The members of these names are the same but for their order. Members of other names may stand anywhere among them,
and may hold anything. -/
def SameMembers (names : List String) (same : Node → Node → Prop) (entries others : Entries) : Prop :=
  ∃ reordered, (known names entries).Perm reordered ∧
    List.Forall₂ (fun m m' => m.1.name = m'.1.name ∧ same m.2 m'.2) reordered (known names others)

/-- Two values hold the same text or the same integer, or neither holds one. -/
def SameValue (n m : Node) : Prop := n.text? = m.text? ∧ n.integer? = m.integer?

/-- Two nodes have the same name and URL. It does not matter how a table came to be: by a section, between braces or by
dotted keys. -/
inductive SameNode : Node → Node → Prop
  | table (origin origin' : Toml.Origin) (span span' : Option Toml.Span) {entries others : Entries}
      (h : SameMembers ["name", "url"] SameValue entries others) :
      SameNode (.table origin span entries) (.table origin' span' others)
  | items {n m first second first' second' : Node} {rest rest' : List Node}
      (hn : n.items? = some (first :: second :: rest)) (hm : m.items? = some (first' :: second' :: rest'))
      (hfirst : SameValue first first') (hsecond : SameValue second second') : SameNode n m
  | neither {n m : Node} (hn : n.nameAndUrl? = none) (hm : m.nameAndUrl? = none) : SameNode n m

structure SameSettings (entries others : Entries) : Prop where
  node : SameMembers ["beacon_node"] SameNode entries others
  numbers : SameMembers ["request_timeout_ms", "validators_timeout_ms", "reconnect_delay_ms", "head_event_buffer"]
    SameValue entries others

section

variable {entries others : Entries} {n m : Node} {names : List String} {same : Node → Node → Prop} {name : String}

theorem get?_known (hname : name ∈ names) (entries : Entries) :
    get? (known names entries) name = get? entries name := by
  rw [get?, get?, known, List.find?_filter]
  congr 2
  funext entry
  by_cases heq : entry.1.name = name
  · simp [heq, hname]
  · simp [heq]

theorem rel_get?_of_forall₂ (h : List.Forall₂ (fun m m' => m.1.name = m'.1.name ∧ same m.2 m'.2) entries others) :
    Option.Rel same (get? entries name) (get? others name) := by
  induction h with
  | nil => exact .none
  | @cons entry other entries others hfirst _ ih =>
      obtain ⟨key, n⟩ := entry
      obtain ⟨key', m⟩ := other
      obtain ⟨hkey, hsame⟩ := hfirst
      rw [get?, get?] at ih ⊢
      by_cases heq : key.name = name
      · rw [List.find?_cons_of_pos (by simpa using heq), List.find?_cons_of_pos (by simpa using hkey ▸ heq)]
        exact .some hsame
      · rw [List.find?_cons_of_neg (by simpa using heq), List.find?_cons_of_neg (by simpa using hkey ▸ heq)]
        exact ih

/-- Where no name stands twice, the members are the same to who looks one up. -/
theorem SameMembers.rel_get? (h : SameMembers names same entries others) (hnodup : (Toml.names entries).Nodup)
    (hname : name ∈ names) : Option.Rel same (get? entries name) (get? others name) := by
  obtain ⟨reordered, hperm, hsame⟩ := h
  have hknown : (Toml.names (known names entries)).Nodup := (List.filter_sublist.map _).nodup hnodup
  rw [← get?_known hname entries, ← get?_known hname others, Toml.get?_perm hknown hperm]
  exact rel_get?_of_forall₂ hsame

variable {α : Type}

theorem SameMembers.bind_eq (h : SameMembers names same entries others) (htidy : TidyEntries entries)
    {f : Node → Option α} (hf : ∀ n m, n.Tidy → same n m → f n = f m) (hname : name ∈ names) :
    (get? entries name).bind f = (get? others name).bind f := by
  have hrel := h.rel_get? htidy.nodup hname
  have hn (n : Node) (hget : get? entries name = some n) : n.Tidy := htidy.get? hget
  generalize get? entries name = x, get? others name = y at hrel hn
  cases hrel with
  | some hsame => exact hf _ _ (hn _ rfl) hsame
  | none => rfl

theorem SameMembers.map_eq (h : SameMembers names same entries others) (htidy : TidyEntries entries)
    {f : Node → α} (hf : ∀ n m, n.Tidy → same n m → f n = f m) (hname : name ∈ names) :
    (get? entries name).map f = (get? others name).map f := by
  rw [Option.map_eq_bind, Option.map_eq_bind]
  exact h.bind_eq htidy (fun n m hn hsame => congrArg some (hf n m hn hsame)) hname

theorem SameNode.nameAndUrl?_eq (h : SameNode n m) (hn : n.Tidy) : n.nameAndUrl? = m.nameAndUrl? := by
  cases h with
  | table origin origin' span span' h =>
      have htext (n m : Node) (_ : n.Tidy) (hsame : SameValue n m) : n.text? = m.text? := hsame.1
      rw [Node.nameAndUrl?, Node.nameAndUrl?, h.bind_eq hn.table_entries htext (List.mem_cons_self ..),
        h.bind_eq hn.table_entries htext (List.mem_cons_of_mem _ (List.mem_cons_self ..))]
  | items hn hm hfirst hsecond =>
      rw [Node.nameAndUrl?_of_items hn, Node.nameAndUrl?_of_items hm, hfirst.1, hsecond.1]
  | neither hn hm => rw [hn, hm]

/-- Nothing else of a document counts as written. -/
theorem SameSettings.written_eq (h : SameSettings entries others) (htidy : TidyEntries entries) :
    Written.of entries = .of others := by
  have hnode : (get? entries "beacon_node").bind Node.nameAndUrl? = (get? others "beacon_node").bind Node.nameAndUrl? :=
    h.node.bind_eq htidy (fun _ _ hn hsame => hsame.nameAndUrl?_eq hn) (List.mem_cons_self ..)
  have hnumber {name : String}
      (hname : name ∈ ["request_timeout_ms", "validators_timeout_ms", "reconnect_delay_ms", "head_event_buffer"]) :
      (get? entries name).map Node.integer? = (get? others name).map Node.integer? :=
    h.numbers.map_eq htidy (fun _ _ _ hsame => hsame.2) hname
  rw [Written.of, Written.of, hnode, hnumber (by simp), hnumber (by simp), hnumber (by simp), hnumber (by simp)]

end

end Settings

/-! ### Three spellings -/

inductive Spelling where
  | header
  | braces
  | dots

/-- A document that names a node, and nothing else. -/
def Spelling.text (name url : String) : Spelling → String
  | .header => String.ofList <|
    "[beacon_node]\nname = ".toList ++ (quoted name ++ ("\nurl = ".toList ++ (quoted url ++ ['\n'])))
  | .braces => String.ofList <|
    "beacon_node = \x7bname = ".toList ++ (quoted name ++ (", url = ".toList ++ (quoted url ++ ['\x7d', '\n'])))
  | .dots => String.ofList <|
    "beacon_node.name = ".toList ++ (quoted name ++ ("\nbeacon_node.url = ".toList ++ (quoted url ++ ['\n'])))

namespace Settings

/-- A node is written, and no number. -/
def Written.ofNode (name url : String) : Written := ⟨some (name, url), none, none, none, none⟩

variable (name url : String)

theorem exists_read_header : ∃ d, Document.read (Spelling.header.text name url) = .ok d ∧
    Written.of d.entries = .ofNode name url := by
  have hheader (rest : List Char) : lineStep levelLimit .start ⟨0, "[beacon_node]\n".toList ++ rest⟩ =
      .ok (.inl ⟨⟨0, 0⟩, [], ⟨[⟨"beacon_node", ⟨1, 12⟩⟩], false, ⟨0, 13⟩, []⟩⟩, ⟨14, rest⟩) := by cbv
  obtain ⟨nameSpan, nameEnd, hname⟩ := lineStep_quoted 14 "name = ".toList ("url = ".toList ++ (quoted url ++ ['\n']))
    name ⟨⟨0, 0⟩, [], ⟨[⟨"beacon_node", ⟨1, 12⟩⟩], false, ⟨0, 13⟩, []⟩⟩ rfl (fun rest => by cbv) (fun span => rfl)
  obtain ⟨urlSpan, urlEnd, hurl⟩ := lineStep_quoted nameEnd "url = ".toList [] url
    ⟨⟨0, 0⟩, [], ⟨[⟨"beacon_node", ⟨1, 12⟩⟩], false, ⟨0, nameSpan.stop⟩,
      [(⟨"name", ⟨14, 18⟩⟩, .text nameSpan name)]⟩⟩ rfl (fun rest => by cbv) (fun span => rfl)
  exact ⟨_, Document.read_of_lines (by decide) ((iterate_next (hheader _)).trans ((iterate_next hname).trans
    ((iterate_next hurl).trans (iterate_last (lineStep_nil _))))) rfl, rfl⟩

theorem exists_read_dots : ∃ d, Document.read (Spelling.dots.text name url) = .ok d ∧
    Written.of d.entries = .ofNode name url := by
  obtain ⟨nameSpan, nameEnd, hname⟩ := lineStep_quoted 0 "beacon_node.name = ".toList
    ("beacon_node.url = ".toList ++ (quoted url ++ ['\n'])) name .start rfl (fun rest => by cbv) (fun span => rfl)
  obtain ⟨urlSpan, urlEnd, hurl⟩ := lineStep_quoted nameEnd "beacon_node.url = ".toList [] url
    ⟨⟨0, nameSpan.stop⟩, [], ⟨[], false, ⟨0, nameSpan.stop⟩,
      [(⟨"beacon_node", ⟨0, 11⟩⟩, .table .dots none [(⟨"name", ⟨12, 16⟩⟩, .text nameSpan name)])]⟩⟩
    rfl (fun rest => by cbv) (fun span => rfl)
  exact ⟨_, Document.read_of_lines (by decide) ((iterate_next hname).trans
    ((iterate_next hurl).trans (iterate_last (lineStep_nil _)))) rfl, rfl⟩

theorem exists_read_braces : ∃ d, Document.read (Spelling.braces.text name url) = .ok d ∧
    Written.of d.entries = .ofNode name url := by
  have hnodeKey (rest : List Char) : keys levelLimit ⟨0, "beacon_node = ".toList ++ rest⟩ =
      .ok (([], ⟨"beacon_node", ⟨0, 11⟩⟩), ⟨12, '=' :: ' ' :: rest⟩) := by cbv
  have hnameKey (rest : List Char) : keys levelLimit ⟨15, "name = ".toList ++ rest⟩ =
      .ok (([], ⟨"name", ⟨15, 19⟩⟩), ⟨20, '=' :: ' ' :: rest⟩) := by cbv
  have hurlKey (start : Nat) (rest : List Char) : keys levelLimit ⟨start, " url = ".toList ++ rest⟩ =
      .ok (([], ⟨"url", ⟨start + 1, start + 1 + 3⟩⟩), ⟨start + 1 + 3 + 1, '=' :: ' ' :: rest⟩) := by cbv
  obtain ⟨nameSpan, nameEnd, hname⟩ := value_quoted (c := ',') 22
    (" url = ".toList ++ (quoted url ++ ['\x7d', '\n'])) (by decide) levelLimit 77 name
  obtain ⟨urlSpan, urlEnd, hurl⟩ := value_quoted (c := '\x7d') (nameEnd + 1 + 1 + 3 + 1 + 1 + 1) ['\n'] (by decide)
    levelLimit 77 url
  have hfirst := memberStep_comma [] (member_ok (hnameKey _) (c := '"') rfl hname) rfl
  have hsecond := memberStep_close [(⟨"name", ⟨15, 19⟩⟩, .text nameSpan name)]
    (member_ok (hurlKey (nameEnd + 1) _) (c := '"') rfl hurl) rfl
  have htable := value_braces (c := 'n') rfl (by decide) (loop_two hfirst hsecond)
  have hline := lineStep_member (d := .start) (c := 'b') rfl
    (member_ok (hnodeKey _) (c := '\x7b') rfl htable) rfl
  exact ⟨_, Document.read_of_lines (by decide) ((iterate_next hline).trans (iterate_last (lineStep_nil _))) rfl, rfl⟩

/-- Any name and any URL can be written in each of the three spellings, and a text in one of them is accepted if the
URL is one. The settings are the same for all three. -/
theorem ofText_spelling [Url.Idna] (spelling : Spelling) (s : Settings) : ofText (spelling.text name url) = .ok s ↔
    s.node.name = name ∧ Url.read url = .ok s.node.url ∧ s.requestTimeout = 5000 ∧ s.validatorsTimeout = 60000 ∧
      s.reconnectDelay = 1000 ∧ s.headEventBuffer = 64 := by
  have hexists : ∃ d, Document.read (spelling.text name url) = .ok d ∧ Written.of d.entries = .ofNode name url := by
    cases spelling with
    | header => exact exists_read_header name url
    | braces => exact exists_read_braces name url
    | dots => exact exists_read_dots name url
  obtain ⟨d, hread, hwritten⟩ := hexists
  rw [ofText_eq_ok_iff ⟨_, hread⟩, hwritten]
  constructor
  · rintro ⟨-, ⟨u, hnode, hurl⟩, hrequest, hvalidators, hreconnect, hbuffer⟩
    simp only [Written.ofNode, Option.some.injEq, Prod.mk.injEq] at hnode
    exact ⟨hnode.1.symm, hnode.2 ▸ hurl, given_none_iff.mp hrequest, given_none_iff.mp hvalidators,
      given_none_iff.mp hreconnect, given_none_iff.mp hbuffer⟩
  · rintro ⟨rfl, hurl, hrequest, hvalidators, hreconnect, hbuffer⟩
    exact ⟨Document.not_nestedTooDeep hread, ⟨_, rfl, hurl⟩, given_none_iff.mpr hrequest,
      given_none_iff.mpr hvalidators, given_none_iff.mpr hreconnect, given_none_iff.mpr hbuffer⟩

end Settings

/-- The node of the documents below. -/
def NodeSettings.lighthouse : NodeSettings where
  name := "lighthouse"
  url := { scheme := "http", place := .divided (some { host := .name "localhost", port := some 5052 }) [""] }

section

open scoped Url.Idna

/-- Settings with a list in a member that means nothing to them. The list holds lists, a hundred levels deep. -/
def nestedText : String :=
  "x = " ++ String.ofList (List.replicate 100 '[' ++ List.replicate 100 ']') ++
    "\n[beacon_node]\nname = \"lighthouse\"\nurl = \"http://localhost:5052\"\n"

end

end ChainHead
