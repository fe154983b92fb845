import ChainHead.Proofs.Follower.Handling

/-! Steps of a consumer, one constructor for each action with everything that makes it possible, and what is told along
a run. Heads may come in, senders leave and the end be called for between any two steps. -/

namespace ChainHead.Consumer

/-- What an action does, and what it needs. -/
inductive Step : Consumer → Action → Consumer → Prop where
  | send {c : Consumer} (head : HeadEvent) (hsenders : c.closed = false) (hopen : c.isFinished = false) :
      Step c (.send head) { c with queue := c.queue ++ [head] }
  | closeChannel (c : Consumer) : Step c .closeChannel { c with closed := true }
  | cancel (c : Consumer) : Step c .cancel { c with cancelled := true }
  | take {c : Consumer} {head : HeadEvent} {rest : List HeadEvent} (hphase : c.phase = .waiting)
      (hqueue : c.queue = head :: rest) (hcancelled : c.cancelled = false) : Step c .take (c.begin head rest)
  | hear {c : Consumer} {head : HeadEvent} {stage : Follower.Stage} {answer : Answer} {p : Follower.Progress}
      (hphase : c.phase = .handling head stage) (hhear : c.follower.hear head stage answer = some p) :
      Step c (.hear answer) (c.proceed head p)
  | stop {c : Consumer} {ending : Ending} (hphase : c.phase = .waiting) (hending : c.ending? = some ending) :
      Step c .stop (c.finish ending)

variable {c d e : Consumer} {action : Action} {actions : List Action}

theorem Step.of_step? (h : c.step? action = some d) : Step c action d := by
  cases action with
  | send head =>
      rw [step?] at h
      split at h
      · cases h
      · rename_i hpossible
        cases h
        rw [Bool.or_eq_true, not_or, Bool.not_eq_true, Bool.not_eq_true] at hpossible
        exact .send head hpossible.1 hpossible.2
  | closeChannel =>
      cases h
      exact .closeChannel c
  | cancel =>
      cases h
      exact .cancel c
  | take =>
      rw [step?] at h
      split at h
      · rename_i head rest hphase hqueue
        split at h
        · cases h
        · rename_i hcancelled
          cases h
          exact .take hphase hqueue (Bool.eq_false_iff.mpr hcancelled)
      · cases h
  | hear answer =>
      rw [step?] at h
      split at h
      · rename_i head stage hphase
        obtain ⟨p, hhear, rfl⟩ := Option.map_eq_some_iff.mp h
        exact .hear hphase hhear
      · cases h
      · cases h
  | stop =>
      rw [step?] at h
      split at h
      · rename_i hphase
        obtain ⟨ending, hending, rfl⟩ := Option.map_eq_some_iff.mp h
        exact .stop hphase hending
      · cases h

theorem Step.step?_eq (h : Step c action d) : c.step? action = some d := by
  cases h with
  | send head hsenders hopen => simp [step?, hsenders, hopen]
  | closeChannel => rfl
  | cancel => rfl
  | take hphase hqueue hcancelled => simp [step?, hphase, hqueue, hcancelled]
  | hear hphase hhear => simp [step?, hphase, hhear]
  | stop hphase hending => simp [step?, hphase, hending]

theorem step?_eq_some_iff : c.step? action = some d ↔ Step c action d :=
  ⟨.of_step?, Step.step?_eq⟩

theorem ending?_of_cancelled (h : c.cancelled = true) : c.ending? = some .shutdown := by
  rw [ending?, if_pos h]

theorem ending?_eq_shutdown_iff : c.ending? = some .shutdown ↔ c.cancelled = true := by
  rw [ending?]
  split_ifs <;> simp_all

theorem ending?_eq_channelClosed_iff :
    c.ending? = some .channelClosed ↔ c.cancelled = false ∧ c.closed = true ∧ c.queue = [] := by
  rw [ending?]
  split_ifs <;> simp_all

/-! ### Runs -/

theorem run?_singleton : c.run? [action] = some d ↔ Step c action d := by
  rw [run?, ← step?_eq_some_iff]
  cases c.step? action <;> simp [run?]

theorem run?_snoc {front : List Action} :
    c.run? (front ++ [action]) = some d ↔ ∃ e, c.run? front = some e ∧ Step e action d := by
  rw [run?_append, Option.bind_eq_some_iff]
  simp only [run?_singleton]

/-- What holds at first and is kept by each step of a run holds of the run. -/
theorem run?_induction {P : List Action → Consumer → Prop} (hnil : P [] c)
    (hsnoc : ∀ front e action d, c.run? front = some e → Step e action d → P front e → P (front ++ [action]) d)
    (actions : List Action) (h : c.run? actions = some d) : P actions d := by
  induction actions using List.reverseRecOn generalizing d with
  | nil =>
      cases h
      exact hnil
  | append_singleton front action ih =>
      obtain ⟨e, hrun, hstep⟩ := run?_snoc.mp h
      exact hsnoc front e action d hrun hstep (ih hrun)

/-- All that is told about the single steps of a run, in their order. -/
def along {α : Type} (tell : Consumer → Action → List α) (c : Consumer) : List Action → List α
  | [] => []
  | action :: rest =>
    tell c action ++
      match c.step? action with
      | some d => d.along tell rest
      | none => []

theorem along_append {α : Type} {tell : Consumer → Action → List α} {front : List Action}
    (h : c.run? front = some d) (back : List Action) :
    c.along tell (front ++ back) = c.along tell front ++ d.along tell back := by
  induction front generalizing c with
  | nil =>
      cases h
      rfl
  | cons action rest ih =>
      obtain ⟨e, hstep, hrun⟩ := Option.bind_eq_some_iff.mp h
      rw [List.cons_append, along, along, hstep]
      simp only [ih hrun, List.append_assoc]

theorem along_snoc {α : Type} {tell : Consumer → Action → List α} {front : List Action}
    (h : c.run? front = some d) : c.along tell (front ++ [action]) = c.along tell front ++ tell d action := by
  rw [along_append h, along]
  cases d.step? action <;> simp [along]

end ChainHead.Consumer
