import ChainHead.Toml.Document
import Mathlib.Data.List.Infix
import Mathlib.Data.List.Nodup
import Mathlib.Tactic.SplitIfs

/-! What holds of the tables of a document, however they came to be: no table has two members of one name, and integers
fit 64 bits with a sign. Everything that is done to tables while a document is read keeps this: to add a member, to
descend to a table or to make it on the way, and to put a section in its place. -/

namespace ChainHead.Toml

def names (entries : Entries) : List String := entries.map fun entry => entry.1.name

/-- A value as a document holds it. -/
inductive Node.Tidy : Node → Prop
  | text (span : Span) (value : String) : Tidy (.text span value)
  | integer (span : Span) {value : Int} (hlow : -0x8000000000000000 ≤ value) (hhigh : value < 0x8000000000000000) :
      Tidy (.integer span value)
  | real (span : Span) (bits : UInt64) : Tidy (.real span bits)
  | flag (span : Span) (value : Bool) : Tidy (.flag span value)
  | moment (span : Span) : Tidy (.moment span)
  | list (span : Span) {items : List Node} (h : ∀ item ∈ items, item.Tidy) : Tidy (.list span items)
  | tables (span : Option Span) {items : List Node} (h : ∀ item ∈ items, item.Tidy) : Tidy (.tables span items)
  | table (origin : Origin) (span : Option Span) {entries : List (Key × Node)} (hnames : (names entries).Nodup)
      (h : ∀ entry ∈ entries, entry.2.Tidy) : Tidy (.table origin span entries)

/-- The members of a tidy table. -/
structure TidyEntries (entries : Entries) : Prop where
  nodup : (names entries).Nodup
  tidy : ∀ entry ∈ entries, entry.2.Tidy

variable {entries : Entries} {key : Key} {name : String} {n value : Node} {items : List Node}

/-! ### Looking up -/

theorem mem_names : name ∈ names entries ↔ ∃ entry ∈ entries, entry.1.name = name := List.mem_map

theorem exists_mem_of_get? (h : get? entries name = some n) : ∃ key, (key, n) ∈ entries ∧ key.name = name := by
  obtain ⟨⟨key, m⟩, hfind, rfl⟩ := Option.map_eq_some_iff.mp h
  exact ⟨key, List.mem_of_find?_eq_some hfind, by simpa using List.find?_some hfind⟩

theorem get?_eq_none_iff : get? entries name = none ↔ name ∉ names entries := by
  rw [get?, Option.map_eq_none_iff, List.find?_eq_none, mem_names]
  simp

/-- Where no name stands twice, each member is found under its name. -/
theorem get?_of_mem (hnodup : (names entries).Nodup) (h : (key, n) ∈ entries) : get? entries key.name = some n := by
  induction entries with
  | nil => cases h
  | cons entry rest ih =>
      obtain ⟨other, m⟩ := entry
      obtain ⟨hfirst, hrest⟩ := List.nodup_cons.mp hnodup
      rcases List.mem_cons.mp h with heq | hmem
      · cases heq
        simp [get?]
      · have hne : other.name ≠ key.name := fun heq => hfirst (mem_names.mpr ⟨(key, n), hmem, heq.symm⟩)
        rw [← ih hrest hmem, get?, get?, List.find?_cons_of_neg (by simpa using hne)]

theorem get?_eq_some_iff (hnodup : (names entries).Nodup) :
    get? entries name = some n ↔ ∃ key, (key, n) ∈ entries ∧ key.name = name := by
  constructor
  · exact exists_mem_of_get?
  · rintro ⟨key, hmem, rfl⟩
    exact get?_of_mem hnodup hmem

/-- The order of the members does not matter to who looks one up. -/
theorem get?_perm {others : Entries} (hnodup : (names entries).Nodup) (h : entries.Perm others) :
    get? entries name = get? others name := by
  have hnodup' : (names others).Nodup := (h.map _).nodup_iff.mp hnodup
  ext n
  rw [get?_eq_some_iff hnodup, get?_eq_some_iff hnodup']
  exact exists_congr fun key => and_congr_left fun _ => h.mem_iff

theorem TidyEntries.get? (h : TidyEntries entries) (hget : get? entries name = some n) : n.Tidy := by
  obtain ⟨key, hmem, -⟩ := exists_mem_of_get? hget
  exact h.tidy _ hmem

theorem Node.Tidy.table_entries {origin : Origin} {span : Option Span} (h : (Node.table origin span entries).Tidy) :
    TidyEntries entries := by
  cases h with
  | table _ _ hnames hentries => exact ⟨hnames, hentries⟩

theorem TidyEntries.table (h : TidyEntries entries) (origin : Origin) (span : Option Span) :
    (Node.table origin span entries).Tidy := .table origin span h.nodup h.tidy

theorem Node.Tidy.tables_items {span : Option Span} (h : (Node.tables span items).Tidy) :
    ∀ item ∈ items, item.Tidy := by
  cases h with
  | tables _ hitems => exact hitems

/-! ### Changing -/

theorem TidyEntries.nil : TidyEntries [] := ⟨List.nodup_nil, nofun⟩

theorem names_append (front back : Entries) : names (front ++ back) = names front ++ names back := List.map_append

theorem nodup_names_snoc (h : (names entries).Nodup) (hnew : name ∉ names entries) :
    (names entries ++ [name]).Nodup := by
  rw [← List.concat_eq_append]
  exact h.concat hnew

theorem names_put : names (put key value entries) =
    if key.name ∈ names entries then names entries else names entries ++ [key.name] := by
  induction entries with
  | nil => rfl
  | cons entry rest ih =>
      obtain ⟨other, old⟩ := entry
      rw [put]
      split_ifs with heq hmem hmem
      · rfl
      · exact absurd (List.mem_cons.mpr (.inl heq.symm)) hmem
      · have hrest : key.name ∈ names rest := (List.mem_cons.mp hmem).resolve_left (Ne.symm heq)
        rw [if_pos hrest] at ih
        exact congrArg (other.name :: ·) ih
      · have hrest : key.name ∉ names rest := fun h => hmem (List.mem_cons_of_mem _ h)
        rw [if_neg hrest] at ih
        exact congrArg (other.name :: ·) ih

theorem eq_or_mem_of_mem_put {entry : Key × Node} (h : entry ∈ put key value entries) :
    entry.2 = value ∨ entry ∈ entries := by
  induction entries with
  | nil => exact .inl (congrArg Prod.snd (List.mem_singleton.mp h))
  | cons first rest ih =>
      obtain ⟨other, old⟩ := first
      rw [put] at h
      split_ifs at h
      · rcases List.mem_cons.mp h with rfl | h
        · exact .inl rfl
        · exact .inr (List.mem_cons_of_mem _ h)
      · rcases List.mem_cons.mp h with rfl | h
        · exact .inr List.mem_cons_self
        · exact (ih h).imp_right (List.mem_cons_of_mem _)

namespace TidyEntries

theorem put (h : TidyEntries entries) (hvalue : value.Tidy) (key : Key) : TidyEntries (put key value entries) := by
  constructor
  · rw [names_put]
    split_ifs with hmem
    · exact h.nodup
    · exact nodup_names_snoc h.nodup hmem
  · intro entry hentry
    rcases eq_or_mem_of_mem_put hentry with heq | hmem
    · exact heq ▸ hvalue
    · exact h.tidy entry hmem

theorem snoc (h : TidyEntries entries) (hvalue : value.Tidy) (hnew : Toml.get? entries key.name = none) :
    TidyEntries (entries ++ [(key, value)]) := by
  constructor
  · rw [names_append]
    exact nodup_names_snoc h.nodup (get?_eq_none_iff.mp hnew)
  · intro entry hentry
    rcases List.mem_append.mp hentry with hmem | hlast
    · exact h.tidy entry hmem
    · cases List.mem_singleton.mp hlast
      exact hvalue

theorem without (h : TidyEntries entries) (name : String) : TidyEntries (without entries name) :=
  ⟨(List.filter_sublist.map _).nodup h.nodup, fun entry hentry => h.tidy entry (List.mem_of_mem_filter hentry)⟩

end TidyEntries

/-- A change that leaves tidy tables tidy. -/
def Keeps (change : Change) : Prop :=
  ∀ origin entries after, TidyEntries entries → change origin entries = .ok after → TidyEntries after

theorem exists_of_bind_ok {ε α β : Type} {x : Except ε α} {f : α → Except ε β} {b : β} (h : (x >>= f) = .ok b) :
    ∃ a, x = .ok a ∧ f a = .ok b := by
  cases x with
  | error fault => cases h
  | ok a => exact ⟨a, rfl, h⟩

/-- What is told about a result is told about an answer. -/
theorem exists_ok_of_told {ε α β : Type} {x : Except ε α} {tell : α → β} {b : β}
    (h : x.toOption.map tell = some b) : ∃ a, x = .ok a ∧ tell a = b := by
  cases x with
  | error fault => cases h
  | ok a => exact ⟨a, rfl, Option.some.inj h⟩

theorem tidy_changeLast {change : Change} {items after : List Node} (hchange : Keeps change)
    (hitems : ∀ item ∈ items, item.Tidy) (h : changeLast change key items = .ok after) :
    ∀ item ∈ after, item.Tidy := by
  rw [changeLast] at h
  split at h
  · rename_i origin span inner hlast
    obtain ⟨changed, hchanged, hafter⟩ := exists_of_bind_ok h
    cases hafter
    have hinner : TidyEntries inner := (hitems _ (List.mem_of_getLast? hlast)).table_entries
    intro item hitem
    rcases List.mem_append.mp hitem with hfront | hback
    · exact hitems item (List.mem_of_mem_dropLast hfront)
    · cases List.mem_singleton.mp hback
      exact (hchange _ _ _ hinner hchanged).table _ _
  · cases h

/-- To change a table below keeps all tables on the way. -/
theorem Keeps.descend {change : Change} (hchange : Keeps change) (dotted : Bool) (path : List Key) :
    Keeps (descend dotted change path) := by
  induction path with
  | nil => exact hchange
  | cons key path ih =>
      intro origin entries after htidy h
      rw [Toml.descend] at h
      split at h
      · obtain ⟨inner, hinner, hafter⟩ := exists_of_bind_ok h
        cases hafter
        exact htidy.put ((ih _ _ _ .nil hinner).table _ _) key
      · rename_i hget
        split_ifs at h
        obtain ⟨inner, hinner, hafter⟩ := exists_of_bind_ok h
        cases hafter
        exact htidy.put ((ih _ _ _ (htidy.get? hget).table_entries hinner).table _ _) key
      · rename_i hget
        obtain ⟨items, hitems, hafter⟩ := exists_of_bind_ok h
        cases hafter
        exact htidy.put (.tables _ (tidy_changeLast ih (htidy.get? hget).tables_items hitems)) key
      · cases h

theorem keeps_addMember (hvalue : value.Tidy) (section? : Option (List Key)) (plain : Bool) (key : Key) :
    Keeps (addMember section? plain key value) := by
  intro origin entries after htidy h
  rw [addMember] at h
  split_ifs at h with _ hknown
  cases h
  exact htidy.snoc hvalue (by simpa using hknown)

theorem keeps_addDotted (hvalue : value.Tidy) (section? : Option (List Key)) (path : List Key) (key : Key) :
    Keeps (addDotted section? path key value) :=
  (keeps_addMember hvalue section? path.isEmpty key).descend true path

/-! ### Sections -/

theorem Section.keeps_place (s : Section) (hs : TidyEntries s.entries) (key : Key) : Keeps (s.place key) := by
  intro origin entries after htidy h
  have hnode : (Node.table .header (some s.span) s.entries).Tidy := hs.table _ _
  simp only [Section.place] at h
  split_ifs at h
  · split at h
    · rename_i hget
      cases h
      refine htidy.put (.tables _ fun item hitem => ?_) key
      rcases List.mem_append.mp hitem with hfront | hback
      · exact (htidy.get? hget).tables_items item hfront
      · cases List.mem_singleton.mp hback
        exact hnode
    · cases h
  · cases h
    exact htidy.put hnode key

/-- A draft whose tables are tidy. -/
structure Draft.Tidy (d : Draft) : Prop where
  done : TidyEntries d.done
  current : TidyEntries d.current.entries

namespace Draft.Tidy

variable {d d' : Draft} {path : List Key}

theorem close (h : d.Tidy) {closed : Entries} (hclose : d.close = .ok closed) : TidyEntries closed := by
  rw [Draft.close] at hclose
  split at hclose
  · cases hclose
    exact h.current
  · exact (d.current.keeps_place h.current _).descend false _ _ _ _ h.done hclose

theorem openTable (h : TidyEntries entries) {opened : Entries × Entries}
    (hopen : openTable path key entries = .ok opened) : TidyEntries opened.1 ∧ TidyEntries opened.2 := by
  rw [Toml.openTable] at hopen
  split at hopen
  · cases hopen
    exact ⟨.nil, h⟩
  · rename_i hget
    cases hopen
    exact ⟨(h.get? hget).table_entries, h.without _⟩
  · cases hopen

theorem reach (h : TidyEntries entries) : TidyEntries (reach path entries) := by
  induction path generalizing entries with
  | nil => exact h
  | cons key path ih =>
      rw [Toml.reach]
      split
      · rename_i hget
        exact ih (h.get? hget).table_entries
      · rename_i items hget
        split
        · rename_i hlast
          exact ih ((h.get? hget).tables_items _ (List.mem_of_getLast? hlast)).table_entries
        · exact .nil
      · exact .nil

theorem openSection (h : d.Tidy) {many : Bool} {span : Span} (hopen : d.openSection many path key span = .ok d') :
    d'.Tidy := by
  obtain ⟨closed, hclose, hopen⟩ := exists_of_bind_ok hopen
  have hclosed := h.close hclose
  cases many with
  | true =>
      obtain ⟨done, hdone, hafter⟩ := exists_of_bind_ok hopen
      cases hafter
      refine ⟨Keeps.descend (fun origin entries after htidy hannounce => ?_) false path _ _ _ hclosed hdone, .nil⟩
      split at hannounce
      · cases hannounce
        exact htidy.put (.tables none (List.forall_mem_nil _)) key
      · cases hannounce
        exact htidy
      · cases hannounce
  | false =>
      obtain ⟨done, hdone, hopen⟩ := exists_of_bind_ok hopen
      obtain ⟨inner, hinner, hafter⟩ := exists_of_bind_ok hopen
      cases hafter
      refine ⟨Keeps.descend (fun origin entries after htidy hchange => ?_) false path _ _ _ hclosed hdone,
        (openTable (reach hclosed) hinner).1⟩
      obtain ⟨opened, hopened, hafter⟩ := exists_of_bind_ok hchange
      cases hafter
      exact (openTable htidy hopened).2

theorem add (h : d.Tidy) (hvalue : value.Tidy) (hadd : d.add path key value = .ok d') : d'.Tidy := by
  obtain ⟨entries, hentries, hafter⟩ := exists_of_bind_ok hadd
  cases hafter
  exact ⟨h.done, keeps_addDotted hvalue _ path key _ _ _ h.current hentries⟩

end Draft.Tidy

end ChainHead.Toml
