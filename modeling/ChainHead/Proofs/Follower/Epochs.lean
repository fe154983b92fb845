import ChainHead.Program
import Mathlib.Data.List.Chain
import Mathlib.Data.List.Induction

/-! The epochs that a follower refreshes. Each head asks whether the node is synced, and asks for the duties and
the validators of its epoch unless that is the epoch that was refreshed last. So the same epoch is not refreshed
twice in a row, a failure is made up for by the next head of the epoch, and whether the node is synced has no
influence on what else is asked. What a program asks over a network is what its follower asks, answered in turn. -/

namespace ChainHead.Follower

/-- Whether the epoch of a head is refreshed while the head is handled: the duties of its proposers and the
validators are asked for, and both are obtained. -/
def refreshes (f : Follower) (a : Answers) (head : HeadEvent) : Bool :=
  let asked := (f.handle a head).questions
  (decide (.proposerDuties (f.epoch head.slot) ∈ asked) && (a.proposerDuties (f.epoch head.slot)).isOk) &&
    (decide (.validators head.slot ∈ asked) && (a.validators head.slot).isOk)

/-- The heads of a run of which the epoch is refreshed. -/
def refreshing (f : Follower) : List (HeadEvent × Answers) → List HeadEvent
  | [] => []
  | (head, a) :: rest =>
    (if f.refreshes a head then [head] else []) ++ (f.handle a head).follower.refreshing rest

variable {f : Follower} {a : Answers} {head : HeadEvent} {rounds : List (HeadEvent × Answers)}

/-! ### One head -/

theorem questions_handle (f : Follower) (a : Answers) (head : HeadEvent) :
    (f.handle a head).questions =
      .syncStatus ::
        if f.refreshed = some (f.epoch head.slot) then []
        else
          .proposerDuties (f.epoch head.slot) ::
            if (a.proposerDuties (f.epoch head.slot)).isOk then [.validators head.slot] else [] := by
  rw [handle]
  split_ifs with hknown hduties
  · rfl
  all_goals
    dsimp only [refresh]
    cases hanswer : a.proposerDuties (f.epoch head.slot) with
    | error e => simp_all [Except.isOk, Except.toBool]
    | ok duties =>
        cases a.validators head.slot <;> simp_all [Except.isOk, Except.toBool]

theorem proposerDuties_mem_questions {epoch : UInt64} :
    .proposerDuties epoch ∈ (f.handle a head).questions ↔
      epoch = f.epoch head.slot ∧ f.refreshed ≠ some epoch := by
  rw [questions_handle]
  split_ifs with hknown hduties
  · simp only [List.mem_singleton, reduceCtorEq, false_iff, not_and, not_not]
    rintro rfl
    exact hknown
  all_goals
    simp only [List.mem_cons, List.not_mem_nil, or_false, reduceCtorEq, false_or, Question.proposerDuties.injEq]
    exact ⟨fun h => ⟨h, h ▸ hknown⟩, And.left⟩

theorem validators_mem_questions {slot : UInt64} :
    .validators slot ∈ (f.handle a head).questions ↔
      slot = head.slot ∧ .proposerDuties (f.epoch slot) ∈ (f.handle a head).questions ∧
        (a.proposerDuties (f.epoch slot)).isOk := by
  rw [proposerDuties_mem_questions, questions_handle]
  split_ifs with hknown hduties
  · simp only [List.mem_singleton, reduceCtorEq, false_iff]
    rintro ⟨rfl, ⟨-, hnew⟩, -⟩
    exact hnew hknown
  · simp only [List.mem_cons, List.not_mem_nil, or_false, reduceCtorEq, false_or, Question.validators.injEq]
    refine ⟨?_, And.left⟩
    rintro rfl
    exact ⟨rfl, ⟨rfl, hknown⟩, hduties⟩
  · simp only [List.mem_cons, List.not_mem_nil, or_false, reduceCtorEq, false_iff]
    rintro ⟨rfl, -, hobtained⟩
    exact hduties hobtained

theorem refreshes_iff :
    f.refreshes a head = true ↔
      f.refreshed ≠ some (f.epoch head.slot) ∧ (a.proposerDuties (f.epoch head.slot)).isOk ∧
        (a.validators head.slot).isOk := by
  simp only [refreshes, Bool.and_eq_true, decide_eq_true_eq, validators_mem_questions,
    proposerDuties_mem_questions, true_and]
  tauto

theorem follower_handle (f : Follower) (a : Answers) (head : HeadEvent) :
    (f.handle a head).follower =
      if f.refreshes a head then { f with refreshed := some (f.epoch head.slot) } else f := by
  rw [handle]
  split_ifs with hknown hrefreshes hrefreshes
  · exact absurd hknown (refreshes_iff.mp hrefreshes).1
  · rfl
  all_goals
    rw [refreshes_iff] at hrefreshes
    dsimp only [refresh]
    cases hduties : a.proposerDuties (f.epoch head.slot) <;> cases hvalidators : a.validators head.slot <;>
      simp_all [Except.isOk, Except.toBool]

@[simp] theorem epoch_handle (slot : UInt64) : (f.handle a head).follower.epoch slot = f.epoch slot := by
  rw [follower_handle]
  split_ifs <;> rfl

theorem head?_questions_handle : (f.handle a head).questions.head? = some .syncStatus := by
  rw [questions_handle]
  rfl

/-- No question is asked twice about a head. -/
theorem questions_handle_sublist :
    (f.handle a head).questions.Sublist
      [.syncStatus, .proposerDuties (f.epoch head.slot), .validators head.slot] := by
  rw [questions_handle]
  split_ifs <;> simp

theorem follower_handle_of_not_refreshes (h : f.refreshes a head = false) : (f.handle a head).follower = f := by
  rw [follower_handle, h]
  rfl

/-! ### Runs -/

theorem handleAll_append (f : Follower) (front back : List (HeadEvent × Answers)) :
    f.handleAll (front ++ back) =
      ⟨((f.handleAll front).follower.handleAll back).follower,
        (f.handleAll front).questions ++ ((f.handleAll front).follower.handleAll back).questions,
        (f.handleAll front).log ++ ((f.handleAll front).follower.handleAll back).log⟩ := by
  induction front generalizing f with
  | nil => rfl
  | cons round rest ih =>
      rw [List.cons_append, handleAll, ih]
      simp only [handleAll, List.append_assoc]

theorem refreshing_append (f : Follower) (front back : List (HeadEvent × Answers)) :
    f.refreshing (front ++ back) = f.refreshing front ++ (f.handleAll front).follower.refreshing back := by
  induction front generalizing f with
  | nil => rfl
  | cons round rest ih =>
      rw [List.cons_append, refreshing, ih, refreshing, List.append_assoc]
      rfl

theorem follower_handleAll_snoc :
    (f.handleAll (rounds ++ [(head, a)])).follower = ((f.handleAll rounds).follower.handle a head).follower := by
  rw [handleAll_append]
  rfl

theorem questions_handleAll_snoc :
    (f.handleAll (rounds ++ [(head, a)])).questions =
      (f.handleAll rounds).questions ++ ((f.handleAll rounds).follower.handle a head).questions := by
  rw [handleAll_append]
  simp only [handleAll, List.append_nil]

theorem refreshing_snoc :
    f.refreshing (rounds ++ [(head, a)]) =
      f.refreshing rounds ++ if (f.handleAll rounds).follower.refreshes a head then [head] else [] := by
  rw [refreshing_append]
  simp only [refreshing, List.append_nil]

/-- The epoch that was refreshed last is that of the last head with which one was refreshed. -/
theorem follower_handleAll (hnew : f.refreshed = none) (rounds : List (HeadEvent × Answers)) :
    (f.handleAll rounds).follower =
      { f with refreshed := (f.refreshing rounds).getLast?.map fun head => f.epoch head.slot } := by
  induction rounds using List.reverseRecOn with
  | nil => simp [handleAll, refreshing, ← hnew]
  | append_singleton rounds round ih =>
      obtain ⟨head, a⟩ := round
      rw [follower_handleAll_snoc, follower_handle, refreshing_snoc]
      split_ifs with hrefreshes
      · rw [List.getLast?_concat, ih]
        rfl
      · rw [List.append_nil, ih]

theorem isChain_refreshing (hnew : f.refreshed = none) (rounds : List (HeadEvent × Answers)) :
    ((f.refreshing rounds).map fun head => f.epoch head.slot).IsChain (· ≠ ·) := by
  induction rounds using List.reverseRecOn with
  | nil => exact .nil
  | append_singleton rounds round ih =>
      obtain ⟨head, a⟩ := round
      rw [refreshing_snoc]
      split_ifs with hrefreshes
      · have hknown := (refreshes_iff.mp hrefreshes).1
        rw [follower_handleAll hnew rounds] at hknown
        rw [List.map_append, List.isChain_append]
        refine ⟨ih, .singleton _, fun last hlast next hnext => ?_⟩
        rw [List.getLast?_map] at hlast
        cases hnext
        rintro rfl
        exact hknown hlast
      · rwa [List.append_nil]

theorem exists_ne_between {α : Type} {e : α} {front mid back : List α}
    (h : (front ++ e :: mid ++ e :: back).IsChain (· ≠ ·)) : ∃ other ∈ mid, other ≠ e := by
  rw [List.append_assoc] at h
  have hmid := h.right_of_append
  cases mid with
  | nil => exact absurd rfl (List.isChain_cons_cons.mp hmid).1
  | cons other rest => exact ⟨other, List.mem_cons_self, (List.isChain_cons_cons.mp hmid).1.symm⟩

/-- Rounds with the same head, of which the answers differ at most in whether the node is synced. -/
def SameButSync (round other : HeadEvent × Answers) : Prop :=
  round.1 = other.1 ∧ round.2.proposerDuties = other.2.proposerDuties ∧ round.2.validators = other.2.validators

theorem SameButSync.handle_eq {other : Answers} (h : SameButSync (head, a) (head, other)) (f : Follower) :
    (f.handle a head).follower = (f.handle other head).follower ∧
      (f.handle a head).questions = (f.handle other head).questions := by
  obtain ⟨-, hduties, hvalidators⟩ := h
  dsimp only at hduties hvalidators
  have hrefreshes : f.refreshes a head = f.refreshes other head := by
    rw [Bool.eq_iff_iff, refreshes_iff, refreshes_iff, hduties, hvalidators]
  constructor
  · rw [follower_handle, follower_handle, hrefreshes]
  · rw [questions_handle, questions_handle, hduties]

theorem handleAll_eq_of_sameButSync {others : List (HeadEvent × Answers)}
    (h : List.Forall₂ SameButSync rounds others) (f : Follower) :
    (f.handleAll rounds).follower = (f.handleAll others).follower ∧
      (f.handleAll rounds).questions = (f.handleAll others).questions := by
  induction h generalizing f with
  | nil => exact ⟨rfl, rfl⟩
  | @cons round other rounds others hround _ ih =>
      obtain ⟨head, a⟩ := round
      obtain ⟨head', b⟩ := other
      obtain rfl : head = head' := hround.1
      obtain ⟨hfollower, hquestions⟩ := hround.handle_eq f
      obtain ⟨hfollowers, hmore⟩ := ih (f.handle a head).follower
      constructor
      · rw [handleAll, handleAll, ← hfollower]
        exact hfollowers
      · rw [handleAll, handleAll, ← hfollower]
        exact congrArg₂ (· ++ ·) hquestions hmore

/-! ### The follower of a program -/

/-- The heads that a program hands to its follower, each with what the node answers while it is handled. -/
def roundsOver (b : Backend) (f : Follower) (network : Http.Network) : List HeadEvent → List (HeadEvent × Answers)
  | [] => []
  | head :: rest =>
    let a := b.answers (f.epoch head.slot) network
    let h := f.handle a head
    (head, a) :: h.follower.roundsOver b (b.putAll h.questions network).2 rest

theorem putAll_append (b : Backend) (front back : List Question) (network : Http.Network) :
    b.putAll (front ++ back) network =
      ((b.putAll front network).1 ++ (b.putAll back (b.putAll front network).2).1,
        (b.putAll back (b.putAll front network).2).2) := by
  induction front generalizing network with
  | nil => rfl
  | cons question rest ih =>
      simp only [List.cons_append, Backend.putAll, ih, List.append_assoc]

/-- A program logs and asks over a network what its follower does with the heads and these answers. -/
theorem program_handleAll (b : Backend) (f : Follower) (network : Http.Network) (heads : List HeadEvent) :
    Program.handleAll b f network heads =
      ((f.handleAll (f.roundsOver b network heads)).log,
        (b.putAll (f.handleAll (f.roundsOver b network heads)).questions network).1) := by
  induction heads generalizing f network with
  | nil => rfl
  | cons head rest ih =>
      simp only [Program.handleAll, roundsOver, handleAll, ih, putAll_append]

/-! ### The follower of a chain -/

theorem refreshed_ofSlotsPerEpoch (slots : UInt64) : (ofSlotsPerEpoch slots).refreshed = none := by
  rw [ofSlotsPerEpoch]
  split_ifs <;> rfl

/-- An epoch without slots counts as an epoch of one slot. -/
theorem slotsPerEpoch_ofSlotsPerEpoch (slots : UInt64) :
    (ofSlotsPerEpoch slots).slotsPerEpoch = max slots 1 := by
  rw [ofSlotsPerEpoch, UInt64.max_def]
  split_ifs with hslots hle hle
  · have hpos : slots.toNat ≠ 0 := fun h => hslots (UInt64.toNat_inj.mp h)
    rw [UInt64.le_iff_toNat_le] at hle
    apply UInt64.toNat_inj.mp
    simp only [UInt64.reduceToNat] at hle ⊢
    omega
  · rfl
  · rfl
  · rw [not_not.mp hslots] at hle
    exact absurd (by decide) hle

theorem epoch_handleAll (f : Follower) (rounds : List (HeadEvent × Answers)) (slot : UInt64) :
    (f.handleAll rounds).follower.epoch slot = f.epoch slot := by
  induction rounds generalizing f with
  | nil => rfl
  | cons round rest ih => exact (ih _).trans (epoch_handle slot)

/-- After any run, a head asks first and once whether the node is synced. It asks for the duties of its epoch
exactly if that is not the epoch that was refreshed last, and for the validators exactly if it obtained these
duties. The epoch that was refreshed last is that of the last head for which both were obtained; a failure leaves
it as it is, and the next head of the epoch asks again. Between two refreshes of an epoch another one is
refreshed, and whether the node is synced matters to nothing else that is asked. -/
theorem epochs_refreshed_in_turn (slots : UInt64) (rounds : List (HeadEvent × Answers)) (head : HeadEvent)
    (a : Answers) :
    let f := ofSlotsPerEpoch slots
    let epoch (slot : UInt64) : UInt64 := slot / max slots 1
    let g := (f.handleAll rounds).follower
    let asked := (g.handle a head).questions
    let behind := f.handleAll (rounds ++ [(head, a)])
    behind.questions = (f.handleAll rounds).questions ++ asked ∧
      asked.head? = some .syncStatus ∧
      asked.Sublist [.syncStatus, .proposerDuties (epoch head.slot), .validators head.slot] ∧
      (.proposerDuties (epoch head.slot) ∈ asked ↔ g.refreshed ≠ some (epoch head.slot)) ∧
      (.validators head.slot ∈ asked ↔
        .proposerDuties (epoch head.slot) ∈ asked ∧ (a.proposerDuties (epoch head.slot)).isOk) ∧
      g.refreshed = (f.refreshing rounds).getLast?.map (fun last => epoch last.slot) ∧
      (g.refreshes a head = false → behind.follower.refreshed = g.refreshed ∧
        ∀ next answers, epoch next.slot = epoch head.slot → .proposerDuties (epoch head.slot) ∈ asked →
          .proposerDuties (epoch next.slot) ∈ (behind.follower.handle answers next).questions) ∧
      (∀ front e mid back, (f.refreshing rounds).map (fun other => epoch other.slot) =
        front ++ e :: mid ++ e :: back → ∃ other ∈ mid, other ≠ e) ∧
      ∀ others, List.Forall₂ SameButSync rounds others →
        (f.handleAll others).questions = (f.handleAll rounds).questions ∧
          (f.handleAll others).follower = g := by
  intro f epoch g asked behind
  have hnew : f.refreshed = none := refreshed_ofSlotsPerEpoch slots
  have hepoch : f.epoch = epoch := by
    funext slot
    exact congrArg (slot / ·) (slotsPerEpoch_ofSlotsPerEpoch slots)
  have hg : g.epoch = epoch := by
    funext slot
    rw [← hepoch]
    exact epoch_handleAll f rounds slot
  have hduties (a : Answers) (head : HeadEvent) :
      .proposerDuties (epoch head.slot) ∈ (g.handle a head).questions ↔ g.refreshed ≠ some (epoch head.slot) := by
    rw [proposerDuties_mem_questions, hg]
    exact and_iff_right rfl
  refine ⟨questions_handleAll_snoc, head?_questions_handle, ?_, hduties a head, ?_, ?_, fun hfailed => ?_,
    fun front e mid back heq => ?_, fun others hothers => ?_⟩
  · rw [← hg]
    exact questions_handle_sublist
  · rw [← hg]
    exact validators_mem_questions.trans (and_iff_right rfl)
  · have hfollower := follower_handleAll hnew rounds
    rw [hepoch] at hfollower
    exact congrArg refreshed hfollower
  · -- the follower is the same as before, so what it did not know then it does not know now
    have hsame : behind.follower = g := follower_handleAll_snoc.trans (follower_handle_of_not_refreshes hfailed)
    refine ⟨congrArg refreshed hsame, fun next answers hnext hmissing => ?_⟩
    rw [hsame, hduties answers next, hnext]
    exact (hduties a head).mp hmissing
  · have hchain := isChain_refreshing hnew rounds
    rw [hepoch] at hchain
    exact exists_ne_between (heq ▸ hchain)
  · obtain ⟨hfollower, hquestions⟩ := handleAll_eq_of_sameButSync hothers f
    exact ⟨hquestions.symm, hfollower.symm⟩

end ChainHead.Follower
