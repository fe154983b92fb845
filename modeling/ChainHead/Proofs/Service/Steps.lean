import ChainHead.Service.Basic
import Mathlib.Data.List.Induction

/-! Steps of a service at work, one constructor for each action with everything that makes it possible, and
what is told along a run. A run is taken apart at its last action, so that an invariant needs one case for
each constructor of `Step` and nothing else. -/

namespace ChainHead.Feed

/-- What an action does, and what it needs. -/
inductive Step (s : Service) : Feed → Action → Feed → Prop where
  | cancel (f : Feed) : Step s f .cancel { f with cancelled := true }
  | dropReceiver (f : Feed) : Step s f .dropReceiver { f with listening := false }
  | receive {f : Feed} {head : HeadEvent} {rest : List HeadEvent} (hchannel : f.channel = head :: rest)
      (hlistening : f.listening = true) : Step s f .receive { f with channel := rest }
  | connect {f : Feed} (hphase : f.phase = .starting) : Step s f .connect (f.connect s)
  | yield {f : Feed} (item : StreamItem) (hphase : f.phase = .waiting) (hexit : f.exit? = none) :
      Step s f (.yield item) (f.take s item)
  | close {f : Feed} (hphase : f.phase = .waiting) (hexit : f.exit? = none) : Step s f .close (f.pause s)
  | send {f : Feed} {head : HeadEvent} (hphase : f.phase = .delivering head) (hexit : f.exit? = none)
      (hroom : f.channel.length < f.capacity) :
      Step s f .send { f with phase := .waiting, channel := f.channel ++ [head] }
  | wake {f : Feed} (hphase : f.phase = .pausing) (hexit : f.exit? = none) :
      Step s f .wake { f with phase := .starting }
  | stop {f : Feed} {exit : Exit} (hwaiting : f.isWaiting = true) (hexit : f.exit? = some exit) :
      Step s f .stop (f.finish s exit)

variable {s : Service} {f g : Feed} {action : Action}

theorem Step.of_step? (h : f.step? s action = some g) : Step s f action g := by
  cases action with
  | cancel =>
      cases h
      exact .cancel f
  | dropReceiver =>
      cases h
      exact .dropReceiver f
  | receive =>
      rw [step?] at h
      split at h
      · cases h
      · rename_i head rest hchannel
        split at h
        · rename_i hlistening
          cases h
          exact .receive hchannel hlistening
        · cases h
  | connect =>
      obtain ⟨hphase, rfl⟩ : f.phase = .starting ∧ f.connect s = g := by simpa [step?] using h
      exact .connect hphase
  | yield item =>
      obtain ⟨⟨hphase, hexit⟩, rfl⟩ : (f.phase = .waiting ∧ f.exit? = none) ∧ f.take s item = g := by
        simpa [step?] using h
      exact .yield item hphase hexit
  | close =>
      obtain ⟨⟨hphase, hexit⟩, rfl⟩ : (f.phase = .waiting ∧ f.exit? = none) ∧ f.pause s = g := by
        simpa [step?] using h
      exact .close hphase hexit
  | send =>
      rw [step?] at h
      split at h
      · rename_i head hphase
        split at h
        · rename_i hopen
          cases h
          exact .send hphase hopen.1 hopen.2
        · cases h
      · cases h
  | wake =>
      obtain ⟨⟨hphase, hexit⟩, rfl⟩ :
          (f.phase = .pausing ∧ f.exit? = none) ∧ { f with phase := .starting } = g := by
        simpa [step?] using h
      exact .wake hphase hexit
  | stop =>
      rw [step?] at h
      split at h
      · rename_i hwaiting
        obtain ⟨exit, hexit, rfl⟩ := Option.map_eq_some_iff.mp h
        exact .stop hwaiting hexit
      · cases h

theorem Step.step?_eq (h : Step s f action g) : f.step? s action = some g := by
  cases h with
  | cancel => rfl
  | dropReceiver => rfl
  | receive hchannel hlistening => simp [step?, hchannel, hlistening]
  | connect hphase => simp [step?, hphase]
  | yield item hphase hexit => simp [step?, hphase, hexit]
  | close hphase hexit => simp [step?, hphase, hexit]
  | send hphase hexit hroom => simp [step?, hphase, hexit, hroom]
  | wake hphase hexit => simp [step?, hphase, hexit]
  | stop hwaiting hexit => simp [step?, hwaiting, hexit]

theorem step?_eq_some_iff : f.step? s action = some g ↔ Step s f action g :=
  ⟨.of_step?, Step.step?_eq⟩

theorem exit?_eq_none_iff : f.exit? = none ↔ f.cancelled = false ∧ f.listening = true := by
  rw [exit?]
  split_ifs <;> simp_all

theorem exit?_eq_shutdown_iff : f.exit? = some .shutdown ↔ f.cancelled = true := by
  rw [exit?]
  split_ifs <;> simp_all

theorem exit?_eq_consumerGone_iff : f.exit? = some .consumerGone ↔ f.cancelled = false ∧ f.listening = false := by
  rw [exit?]
  split_ifs <;> simp_all

theorem connect_of_ok {target : Http.Target} (htarget : Stream.target s.url = .ok target) :
    f.connect s = { f.note [s.connectingEntry f.state] with phase := .waiting } := by
  rw [connect, htarget]

theorem connect_of_error {error : Error} (htarget : Stream.target s.url = .error error) :
    f.connect s = (f.note [s.connectingEntry f.state, s.unsubscribedEntry error]).pause s := by
  rw [connect, htarget]
  simp [note, pause]

/-! ### What a step leaves as it is -/

@[simp] theorem channel_connect (f : Feed) : (f.connect s).channel = f.channel := by
  rw [connect]
  cases Stream.target s.url <;> rfl

/-- To begin a session changes nothing but what the service does, its state, and its log. -/
theorem connect_eq (f : Feed) :
    f.connect s =
      { f with
        phase := (f.connect s).phase
        state := (f.connect s).state
        log := (f.connect s).log } := by
  rw [connect]
  cases Stream.target s.url <;> rfl

/-- What the service takes from its session changes nothing but what it does, its state, and its log. -/
theorem take_eq (f : Feed) (item : StreamItem) :
    f.take s item =
      { f with
        phase := (f.take s item).phase
        state := (f.take s item).state
        log := (f.take s item).log } := by
  cases item with
  | connected => rfl
  | head event => rfl
  | failed error =>
      rw [take]
      split_ifs <;> rfl

@[simp] theorem channel_take (f : Feed) (item : StreamItem) : (f.take s item).channel = f.channel := by
  rw [take_eq]

@[simp] theorem capacity_take (f : Feed) (item : StreamItem) : (f.take s item).capacity = f.capacity := by
  rw [take_eq]

@[simp] theorem exit?_take (f : Feed) (item : StreamItem) : (f.take s item).exit? = f.exit? := by
  rw [take_eq]
  rfl

theorem Step.capacity_eq (h : Step s f action g) : g.capacity = f.capacity := by
  cases h with
  | connect => rw [connect_eq]
  | yield item => exact capacity_take f item
  | _ => rfl

/-- A log only grows. -/
theorem Step.exists_log_eq (h : Step s f action g) : ∃ entries, g.log = f.log ++ entries := by
  cases h with
  | connect =>
      cases htarget : Stream.target s.url with
      | ok target => exact ⟨_, congrArg log (connect_of_ok htarget)⟩
      | error error =>
          rw [connect_of_error htarget]
          exact ⟨_, List.append_assoc _ _ _⟩
  | yield item =>
      cases item with
      | connected => exact ⟨_, rfl⟩
      | head event => exact ⟨_, rfl⟩
      | failed error =>
          rw [take]
          split_ifs
          · exact ⟨_, rfl⟩
          · exact ⟨_, List.append_assoc _ _ _⟩
  | close => exact ⟨_, rfl⟩
  | stop => exact ⟨_, rfl⟩
  | _ => exact ⟨[], (List.append_nil f.log).symm⟩

/-! ### Runs -/

/-- A service at work with a channel of the given room, before its first action. -/
def fresh (room : Nat) : Feed := { capacity := room }

theorem run?_singleton : f.run? s [action] = some g ↔ Step s f action g := by
  rw [run?, ← step?_eq_some_iff]
  cases f.step? s action <;> simp [run?]

theorem run?_snoc {front : List Action} :
    f.run? s (front ++ [action]) = some g ↔ ∃ e, f.run? s front = some e ∧ Step s e action g := by
  rw [run?_append, Option.bind_eq_some_iff]
  simp only [run?_singleton]

/-- What holds at first and is kept by each step of a run holds of the run. -/
theorem run?_induction {P : List Action → Feed → Prop} (hnil : P [] f)
    (hsnoc : ∀ front e action g, f.run? s front = some e → Step s e action g → P front e →
      P (front ++ [action]) g)
    (actions : List Action) (h : f.run? s actions = some g) : P actions g := by
  induction actions using List.reverseRecOn generalizing g with
  | nil =>
      cases h
      exact hnil
  | append_singleton front action ih =>
      obtain ⟨e, hrun, hstep⟩ := run?_snoc.mp h
      exact hsnoc front e action g hrun hstep (ih hrun)

/-- All that is told about the single steps of a run, in their order. -/
def along {α : Type} (s : Service) (tell : Feed → Action → List α) (f : Feed) : List Action → List α
  | [] => []
  | action :: rest =>
    tell f action ++
      match f.step? s action with
      | some g => g.along s tell rest
      | none => []

theorem along_append {α : Type} {tell : Feed → Action → List α} {front : List Action}
    (h : f.run? s front = some g) (back : List Action) :
    f.along s tell (front ++ back) = f.along s tell front ++ g.along s tell back := by
  induction front generalizing f with
  | nil =>
      cases h
      rfl
  | cons action rest ih =>
      obtain ⟨e, hstep, hrun⟩ := Option.bind_eq_some_iff.mp h
      rw [List.cons_append, along, along, hstep]
      simp only [ih hrun, List.append_assoc]

theorem along_snoc {α : Type} {tell : Feed → Action → List α} {front : List Action}
    (h : f.run? s front = some g) :
    f.along s tell (front ++ [action]) = f.along s tell front ++ tell g action := by
  rw [along_append h, along]
  cases g.step? s action <;> simp [along]

end ChainHead.Feed
