import ChainHead.Proofs.Service.Skips

/-! Sessions that are given. A run follows them if it takes from each of them what it holds, in order, and if they
end where they end. Without what is skipped it follows the sessions without what is skipped; and what follows these
can be made to follow the given ones, by skipping what is to be skipped right before the next item is taken. -/

namespace ChainHead

/-- What sessions hold ready: the rest of the one that began last, whether it stays open behind that, and the
sessions to come. -/
structure Supply where
  items : List StreamItem := []
  staysOpen : Bool := true
  later : List (List StreamItem × Bool)
deriving DecidableEq

namespace Supply

/-- What is left after an action, if what it takes from the sessions is there. -/
def step? (u : Supply) : Action → Option Supply
  | .connect =>
    match u.later with
    | [] => none
    | (items, staysOpen) :: later => some { items, staysOpen, later }
  | .yield item =>
    match u.items with
    | [] => none
    | first :: rest => if first = item then some { u with items := rest } else none
  | .close => if u.items = [] ∧ u.staysOpen = false then some u else none
  | _ => some u

def run? (u : Supply) (actions : List Action) : Option Supply := actions.foldlM step? u

/-- The same sessions without what is skipped. -/
def bare (u : Supply) : Supply where
  items := keptItems u.items
  staysOpen := u.staysOpen
  later := u.later.map fun (items, staysOpen) => (keptItems items, staysOpen)

variable {u v w : Supply} {action : Action} {actions : List Action}

theorem run?_cons : u.run? (action :: actions) = (u.step? action).bind fun v => v.run? actions :=
  List.foldlM_cons

theorem run?_append (front back : List Action) :
    u.run? (front ++ back) = (u.run? front).bind fun v => v.run? back :=
  List.foldlM_append

theorem run?_singleton : u.run? [action] = u.step? action := by
  rw [run?_cons]
  cases u.step? action <;> rfl

theorem run?_snoc : u.run? (actions ++ [action]) = some w ↔ ∃ v, u.run? actions = some v ∧ v.step? action = some w := by
  rw [run?_append, Option.bind_eq_some_iff]
  simp only [run?_singleton]

theorem step?_yield_iff {item : StreamItem} :
    u.step? (.yield item) = some v ↔ ∃ rest, u.items = item :: rest ∧ v = { u with items := rest } := by
  rw [step?]
  constructor
  · intro h
    split at h
    · cases h
    · rename_i first rest hitems
      split at h
      · rename_i heq
        cases h
        exact ⟨rest, heq ▸ hitems, rfl⟩
      · cases h
  · rintro ⟨rest, hitems, rfl⟩
    simp only [hitems, if_true]

theorem step?_bare (haction : action.skipped? = none) (h : u.step? action = some v) :
    u.bare.step? action = some v.bare := by
  cases action with
  | connect =>
      obtain ⟨items, staysOpen, later⟩ := u
      cases later with
      | nil => cases h
      | cons session later =>
          cases h
          rfl
  | yield item =>
      obtain ⟨rest, hitems, rfl⟩ := step?_yield_iff.mp h
      have hitem : item.skipped? = none := haction
      have hkept : u.bare.items = item :: keptItems rest := by
        simp [bare, keptItems, hitems, hitem]
      exact step?_yield_iff.mpr ⟨_, hkept, rfl⟩
  | close =>
      rw [step?] at h
      split at h
      · rename_i hclosed
        cases h
        have hitems : u.bare.items = [] := by simp [bare, keptItems, hclosed.1]
        rw [step?, if_pos ⟨hitems, hclosed.2⟩]
      · cases h
  | _ =>
      cases h
      rfl

theorem bare_eq_of_skipped? {error : Error} (haction : action.skipped? = some error) (h : u.step? action = some v) :
    v.bare = u.bare := by
  obtain ⟨rfl, hskippable⟩ := Action.exists_of_skipped? haction
  obtain ⟨rest, hitems, rfl⟩ := step?_yield_iff.mp h
  simp [bare, keptItems, hitems, StreamItem.skipped?, hskippable]

/-- What follows given sessions follows them without what is skipped. -/
theorem run?_bare (h : u.run? actions = some v) : u.bare.run? (kept actions) = some v.bare := by
  induction actions using List.reverseRecOn generalizing v with
  | nil =>
      cases h
      rfl
  | append_singleton front action ih =>
      obtain ⟨w, hrun, hstep⟩ := run?_snoc.mp h
      rw [kept_append]
      cases haction : action.skipped? with
      | none =>
          rw [kept_of_skipped?_eq_none haction]
          exact run?_snoc.mpr ⟨w.bare, ih hrun, step?_bare haction hstep⟩
      | some error =>
          rw [kept_of_skipped? haction, List.append_nil, bare_eq_of_skipped? haction hstep]
          exact ih hrun

theorem run?_yields (before rest : List StreamItem) (staysOpen : Bool) (later : List (List StreamItem × Bool)) :
    run? ⟨before ++ rest, staysOpen, later⟩ (before.map .yield) = some ⟨rest, staysOpen, later⟩ := by
  induction before with
  | nil => rfl
  | cons item before ih =>
      rw [List.map_cons, run?_cons, step?_yield_iff.mpr ⟨before ++ rest, rfl, rfl⟩, Option.bind_some]
      exact ih

/-- An action that is possible without what is skipped is possible behind what is to be skipped before it. -/
theorem exists_of_step?_bare (h : u.bare.step? action = some w) :
    action.skipped? = none ∧ ∃ before : List StreamItem, (∀ item ∈ before, item.skipped? ≠ none) ∧
      (before ≠ [] → action = .close ∨ ∃ item, action = .yield item) ∧
      ∃ v, u.run? (before.map .yield ++ [action]) = some v ∧ v.bare = w := by
  obtain ⟨items, staysOpen, later⟩ := u
  cases action with
  | connect =>
      refine ⟨rfl, [], by simp, by simp, ?_⟩
      cases later with
      | nil => cases h
      | cons session later =>
          cases h
          exact ⟨_, rfl, rfl⟩
  | yield item =>
      obtain ⟨rest, hitems, rfl⟩ := step?_yield_iff.mp h
      obtain ⟨before, behind, rfl, hbefore, hitem, hbehind⟩ := List.filter_eq_cons_iff.mp hitems
      refine ⟨Option.isNone_iff_eq_none.mp hitem, before, by simpa using hbefore, fun _ => .inr ⟨item, rfl⟩,
        ⟨behind, staysOpen, later⟩, ?_, ?_⟩
      · rw [run?_append, run?_yields, Option.bind_some, run?_singleton]
        exact step?_yield_iff.mpr ⟨behind, rfl, rfl⟩
      · rw [bare, keptItems, hbehind]
        rfl
  | close =>
      rw [step?] at h
      split at h
      · rename_i hclosed
        cases h
        have hitems := List.filter_eq_nil_iff.mp hclosed.1
        refine ⟨rfl, items, by simpa using hitems, fun _ => .inl rfl, ⟨[], staysOpen, later⟩, ?_, ?_⟩
        · have hyields := run?_yields items [] staysOpen later
          rw [List.append_nil] at hyields
          rw [run?_append, hyields, Option.bind_some, run?_singleton, step?, if_pos ⟨rfl, hclosed.2⟩]
        · simp [bare, keptItems, List.filter_eq_nil_iff.mpr hitems]
      · cases h
  | _ =>
      cases h
      exact ⟨rfl, [], by simp, by simp, _, rfl, rfl⟩

end Supply

end ChainHead
