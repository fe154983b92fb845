import ChainHead.Proofs.Toml.Nesting

/-! The levels of lists and tables in a document. Whatever is read makes the tables that are gathered as deep as it is
itself, and nothing makes them less deep: a member that is added, a section that is closed, and a table that a header
takes out of its parent until the section is closed. So what is too deep at any time is so in the end. -/

namespace ChainHead.Toml

mutual

/-- The levels of lists and tables in a value. A list that headers make is one level with its tables. -/
def Node.depth : Node → Nat
  | .list _ items => itemsDepth items + 1
  | .tables _ items => itemsDepth items
  | .table _ _ entries => entriesDepth entries + 1
  | _ => 0

def itemsDepth : List Node → Nat
  | [] => 0
  | n :: rest => max n.depth (itemsDepth rest)

def entriesDepth : List (Key × Node) → Nat
  | [] => 0
  | (_, n) :: rest => max n.depth (entriesDepth rest)

end

/-- The levels of a document, which is a table itself. -/
def Document.depth (d : Document) : Nat := entriesDepth d.entries + 1

variable {entries after : Entries} {key : Key} {name : String} {n value : Node} {items : List Node} {k : Nat}

theorem itemsDepth_append (front back : List Node) :
    itemsDepth (front ++ back) = max (itemsDepth front) (itemsDepth back) := by
  induction front with
  | nil => simp [itemsDepth]
  | cons n rest ih => rw [List.cons_append, itemsDepth, itemsDepth, ih, max_assoc]

theorem itemsDepth_singleton (n : Node) : itemsDepth [n] = n.depth := by
  rw [itemsDepth, itemsDepth, Nat.max_zero]

theorem entriesDepth_append (front back : Entries) :
    entriesDepth (front ++ back) = max (entriesDepth front) (entriesDepth back) := by
  induction front with
  | nil => simp [entriesDepth]
  | cons entry rest ih =>
      obtain ⟨key, n⟩ := entry
      rw [List.cons_append, entriesDepth, entriesDepth, ih, max_assoc]

theorem entriesDepth_singleton (key : Key) (n : Node) : entriesDepth [(key, n)] = n.depth := by
  rw [entriesDepth, entriesDepth, Nat.max_zero]

theorem entriesDepth_le_iff : entriesDepth entries ≤ k ↔ ∀ entry ∈ entries, entry.2.depth ≤ k := by
  induction entries with
  | nil => simp [entriesDepth]
  | cons entry rest ih =>
      obtain ⟨key, n⟩ := entry
      rw [entriesDepth, Nat.max_le, ih, List.forall_mem_cons]

/-! ### Changing -/

theorem depth_le_put : value.depth ≤ entriesDepth (put key value entries) := by
  induction entries with
  | nil =>
      rw [put, entriesDepth_singleton]
  | cons entry rest ih =>
      obtain ⟨other, old⟩ := entry
      rw [put]
      split_ifs <;> rw [entriesDepth] <;> omega

/-- Only the value that is replaced may be deeper. -/
theorem entriesDepth_le_max_put (h : ∀ old, get? entries key.name = some old → old.depth ≤ max value.depth k) :
    entriesDepth entries ≤ max (entriesDepth (put key value entries)) k := by
  induction entries with
  | nil => exact Nat.zero_le _
  | cons entry rest ih =>
      obtain ⟨other, old⟩ := entry
      rw [put]
      split_ifs with hname
      · have hold := h old (by simp [get?, hname])
        rw [entriesDepth, entriesDepth]
        omega
      · have hskip : get? ((other, old) :: rest) key.name = get? rest key.name := by simp [get?, hname]
        have hrest := ih fun old hold => h old (hskip.trans hold)
        rw [entriesDepth, entriesDepth]
        omega

theorem entriesDepth_le_put (h : ∀ old, get? entries key.name = some old → old.depth ≤ value.depth) :
    entriesDepth entries ≤ entriesDepth (put key value entries) := by
  have hle := entriesDepth_le_max_put (k := 0) fun old hold => (h old hold).trans (Nat.le_max_left _ _)
  rwa [Nat.max_zero] at hle

/-- A change makes tables as deep as that, and never less deep. -/
structure Deepens (change : Change) (levels : Nat) : Prop where
  kept : ∀ origin entries after, change origin entries = .ok after → entriesDepth entries ≤ entriesDepth after
  reached : ∀ origin entries after, change origin entries = .ok after → levels ≤ entriesDepth after

variable {change : Change} {levels : Nat}

/-- A change that puts in a value which is no less deep than the one before. -/
theorem Deepens.of_put (key : Key) (h : ∀ origin entries after, change origin entries = .ok after → ∃ value,
    after = put key value entries ∧ levels ≤ value.depth ∧
      ∀ old, get? entries key.name = some old → old.depth ≤ value.depth) : Deepens change levels := by
  constructor
  · intro origin entries after hafter
    obtain ⟨value, rfl, -, hold⟩ := h origin entries after hafter
    exact entriesDepth_le_put hold
  · intro origin entries after hafter
    obtain ⟨value, rfl, hdeep, -⟩ := h origin entries after hafter
    exact hdeep.trans depth_le_put

theorem Deepens.changeLast (h : Deepens change levels) {changed : List Node}
    (hchanged : changeLast change key items = .ok changed) :
    itemsDepth items ≤ itemsDepth changed ∧ levels + 1 ≤ itemsDepth changed := by
  rw [Toml.changeLast] at hchanged
  split at hchanged
  · rename_i origin span inner hlast
    obtain ⟨after, hafter, heq⟩ := exists_of_bind_ok hchanged
    cases heq
    have hkept := h.kept _ _ _ hafter
    have hreached := h.reached _ _ _ hafter
    have hitems : items = items.dropLast ++ [.table origin span inner] := (List.dropLast_append_getLast? _ hlast).symm
    rw [itemsDepth_append, itemsDepth_singleton, Node.depth]
    constructor
    · rw [hitems, itemsDepth_append, itemsDepth_singleton, Node.depth, List.dropLast_concat]
      omega
    · omega
  · cases hchanged

theorem Deepens.descend (h : Deepens change levels) (dotted : Bool) (path : List Key) :
    Deepens (descend dotted change path) (levels + path.length) := by
  induction path with
  | nil => exact h
  | cons key path ih =>
      refine .of_put key fun origin entries after hafter => ?_
      rw [List.length_cons]
      rw [Toml.descend] at hafter
      split at hafter
      · rename_i hget
        obtain ⟨inner, hinner, heq⟩ := exists_of_bind_ok hafter
        cases heq
        have hreached := ih.reached _ _ _ hinner
        refine ⟨_, rfl, ?_, fun old hold => ?_⟩
        · rw [Node.depth]
          omega
        · cases hget.symm.trans hold
      · rename_i hget
        split_ifs at hafter
        obtain ⟨inner, hinner, heq⟩ := exists_of_bind_ok hafter
        cases heq
        have hkept := ih.kept _ _ _ hinner
        have hreached := ih.reached _ _ _ hinner
        refine ⟨_, rfl, ?_, fun old hold => ?_⟩
        · rw [Node.depth]
          omega
        · cases hget.symm.trans hold
          rw [Node.depth, Node.depth]
          omega
      · rename_i hget
        obtain ⟨items, hitems, heq⟩ := exists_of_bind_ok hafter
        cases heq
        obtain ⟨hkept, hreached⟩ := ih.changeLast hitems
        refine ⟨_, rfl, ?_, fun old hold => ?_⟩
        · rw [Node.depth]
          omega
        · cases hget.symm.trans hold
          rw [Node.depth, Node.depth]
          exact hkept
      · cases hafter

theorem deepens_addMember (section? : Option (List Key)) (plain : Bool) (key : Key) (value : Node) :
    Deepens (addMember section? plain key value) value.depth := by
  have hadded (origin : Origin) (entries after : Entries)
      (h : addMember section? plain key value origin entries = .ok after) : after = entries ++ [(key, value)] := by
    rw [addMember] at h
    split_ifs at h
    cases h
    rfl
  constructor
  all_goals
    intro origin entries after h
    rw [hadded origin entries after h, entriesDepth_append, entriesDepth_singleton]
    omega

theorem deepens_addDotted (section? : Option (List Key)) (path : List Key) (key : Key) (value : Node) :
    Deepens (addDotted section? path key value) (value.depth + path.length) :=
  (deepens_addMember section? path.isEmpty key value).descend true path

/-! ### Sections -/

theorem Section.deepens_place (s : Section) (key : Key) : Deepens (s.place key) (entriesDepth s.entries + 1) := by
  refine .of_put key fun origin entries after h => ?_
  simp only [Section.place] at h
  split_ifs at h with hmany hsome
  · split at h
    · rename_i hget
      cases h
      refine ⟨_, rfl, ?_, fun old hold => ?_⟩
      · rw [Node.depth, itemsDepth_append, itemsDepth_singleton, Node.depth]
        omega
      · cases hget.symm.trans hold
        rw [Node.depth, Node.depth, itemsDepth_append]
        omega
    · cases h
  · cases h
    refine ⟨_, rfl, by rw [Node.depth], fun old hold => ?_⟩
    rw [hold] at hsome
    exact absurd rfl hsome

/-- The levels of a draft. Of the section in front of the first header nothing else counts. -/
def Draft.depth (d : Draft) : Nat :=
  max (if d.current.path = [] then 0 else entriesDepth d.done) (entriesDepth d.current.entries + d.current.path.length)

namespace Draft

variable {d d' : Draft} {path : List Key}

theorem depth_le_close {closed : Entries} (h : d.close = .ok closed) : d.depth ≤ entriesDepth closed := by
  rw [close] at h
  split at h
  · rename_i hlast
    cases h
    rw [depth, List.getLast?_eq_none_iff.mp hlast]
    simp
  · rename_i key hlast
    have hpath : d.current.path = d.current.path.dropLast ++ [key] := (List.dropLast_append_getLast? _ hlast).symm
    have hlength : d.current.path.length = d.current.path.dropLast.length + 1 := by
      conv_lhs => rw [hpath]
      exact List.length_append
    have hplaced := (d.current.deepens_place key).descend false d.current.path.dropLast
    have hkept := hplaced.kept _ _ _ h
    have hreached := hplaced.reached _ _ _ h
    rw [depth]
    split_ifs <;> omega

theorem depth_le_add (h : d.add path key value = .ok d') :
    d.depth ≤ d'.depth ∧ value.depth + path.length ≤ d'.depth := by
  obtain ⟨entries, hentries, heq⟩ := exists_of_bind_ok h
  cases heq
  have hadded := deepens_addDotted (some d.current.path) path key value
  have hkept := hadded.kept _ _ _ hentries
  have hreached := hadded.reached _ _ _ hentries
  rw [depth, depth]
  dsimp only
  constructor <;> split_ifs <;> omega

/-- A table that a header takes out of its parent was as deep there as in its section. -/
theorem depth_le_opened {name : List Key} {origin : Origin} {left : Entries} {opened : Entries × Entries}
    (htidy : TidyEntries entries)
    (hleft : descend false (fun _ entries => do return (← openTable name key entries).2) path origin entries = .ok left)
    (hopened : openTable name key (reach path entries) = .ok opened) :
    entriesDepth entries ≤ max (entriesDepth left) (entriesDepth opened.1 + path.length + 1) := by
  induction path generalizing origin entries left with
  | nil =>
      rw [reach] at hopened
      rw [descend, hopened] at hleft
      cases hleft
      rw [openTable] at hopened
      split at hopened
      · cases hopened
        exact Nat.le_max_left _ _
      · rename_i span inner hget
        cases hopened
        rw [entriesDepth_le_iff]
        rintro ⟨other, n⟩ hmem
        by_cases hname : other.name = key.name
        · have hn := get?_of_mem htidy.nodup hmem
          rw [hname, hget] at hn
          cases hn
          rw [Node.depth]
          exact Nat.le_max_right _ _
        · have hleft : (other, n) ∈ without entries key.name := List.mem_filter.mpr ⟨hmem, by simpa using hname⟩
          exact (entriesDepth_le_iff.mp (Nat.le_refl _) _ hleft).trans (Nat.le_max_left _ _)
      · cases hopened
  | cons first path ih =>
      rw [descend] at hleft
      split at hleft
      · rename_i hget
        obtain ⟨inner, hinner, heq⟩ := exists_of_bind_ok hleft
        cases heq
        refine entriesDepth_le_max_put fun old hold => ?_
        cases hget.symm.trans hold
      · rename_i origin span inner hget
        split_ifs at hleft
        obtain ⟨after, hafter, heq⟩ := exists_of_bind_ok hleft
        cases heq
        rw [reach, hget] at hopened
        have hle := ih (htidy.get? hget).table_entries hafter hopened
        refine entriesDepth_le_max_put fun old hold => ?_
        cases hget.symm.trans hold
        rw [Node.depth, Node.depth, List.length_cons]
        omega
      · rename_i span items hget
        obtain ⟨changed, hchanged, heq⟩ := exists_of_bind_ok hleft
        cases heq
        rw [changeLast] at hchanged
        split at hchanged
        · rename_i origin' span' inner hlast
          obtain ⟨after, hafter, heq⟩ := exists_of_bind_ok hchanged
          cases heq
          rw [reach, hget] at hopened
          simp only [hlast] at hopened
          have hinner := ((htidy.get? hget).tables_items _ (List.mem_of_getLast? hlast)).table_entries
          have hle := ih hinner hafter hopened
          have hitems : items = items.dropLast ++ [.table origin' span' inner] :=
            (List.dropLast_append_getLast? _ hlast).symm
          have hdepth : itemsDepth items = max (itemsDepth items.dropLast) (entriesDepth inner + 1) := by
            conv_lhs => rw [hitems]
            rw [itemsDepth_append, itemsDepth_singleton, Node.depth]
          refine entriesDepth_le_max_put fun old hold => ?_
          cases hget.symm.trans hold
          rw [Node.depth, Node.depth, itemsDepth_append, itemsDepth_singleton, Node.depth, hdepth, List.length_cons]
          omega
        · cases hchanged
      · cases hleft

theorem depth_opened (whole : Span) (done inner : Entries) (path : List Key) (key : Key) (many : Bool) (span : Span) :
    Draft.depth ⟨whole, done, ⟨path ++ [key], many, span, inner⟩⟩ =
      max (entriesDepth done) (entriesDepth inner + (path.length + 1)) := by
  simp [depth]

theorem depth_le_openSection (htidy : d.Tidy) {many : Bool} {span : Span}
    (h : d.openSection many path key span = .ok d') : d.depth ≤ d'.depth ∧ path.length + 1 ≤ d'.depth := by
  obtain ⟨closed, hclose, hopen⟩ := exists_of_bind_ok h
  have hclosed := depth_le_close hclose
  cases many with
  | true =>
      obtain ⟨done, hdone, heq⟩ := exists_of_bind_ok hopen
      cases heq
      have hkept : entriesDepth closed ≤ entriesDepth done := by
        refine (Deepens.descend ⟨fun origin entries after hannounce => ?_, fun _ _ _ _ => Nat.zero_le _⟩
          false path).kept _ _ _ hdone
        split at hannounce
        · rename_i hget
          cases hannounce
          refine entriesDepth_le_put fun old hold => ?_
          cases hget.symm.trans hold
        · cases hannounce
          exact Nat.le_refl _
        · cases hannounce
      rw [depth_opened]
      omega
  | false =>
      obtain ⟨done, hdone, hopen⟩ := exists_of_bind_ok hopen
      obtain ⟨opened, hopened, heq⟩ := exists_of_bind_ok hopen
      cases heq
      have hle := depth_le_opened (htidy.close hclose) hdone hopened
      rw [depth_opened]
      omega

end Draft

end ChainHead.Toml
