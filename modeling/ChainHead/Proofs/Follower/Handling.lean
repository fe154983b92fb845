import ChainHead.Consumer
import ChainHead.Proofs.Follower.Epochs

/-! A head that is handled answer by answer. Whatever the answers are, a follower that hears them in turn asks, logs
and remembers what it does when it is given all of them at once; so a run of a consumer can be told in whole heads. -/

namespace ChainHead

/-- The answer to a question. -/
def Answers.to (a : Answers) : Question → Answer
  | .syncStatus => .syncStatus a.syncStatus
  | .proposerDuties epoch => .proposerDuties (a.proposerDuties epoch)
  | .validators slot => .validators (a.validators slot)

namespace Follower

/-- All answers to the questions about heads that are handled one after the other. -/
def answered (f : Follower) : List (HeadEvent × Answers) → List Answer
  | [] => []
  | (head, a) :: rest => (f.handle a head).questions.map a.to ++ (f.handle a head).follower.answered rest

/-- What is asked about a head in a stage of its handling. -/
def asks (f : Follower) (head : HeadEvent) : Stage → Question
  | .syncStatus => .syncStatus
  | .proposerDuties => .proposerDuties (f.epoch head.slot)
  | .validators _ => .validators head.slot

/-- What an answer leads to, and what that needs. -/
inductive Hears (f : Follower) (head : HeadEvent) : Stage → Answer → Progress → Prop
  | known (sync : Except Error SyncStatus) (hknown : f.refreshed = some (f.epoch head.slot)) :
      Hears f head .syncStatus (.syncStatus sync) { follower := f, log := [syncEntry sync] }
  | new (sync : Except Error SyncStatus) (hnew : f.refreshed ≠ some (f.epoch head.slot)) :
      Hears f head .syncStatus (.syncStatus sync)
        { follower := f, stage := some .proposerDuties, log := [syncEntry sync] }
  | noDuties (e : Error) :
      Hears f head .proposerDuties (.proposerDuties (.error e))
        { follower := f, log := [noDutiesEntry (f.epoch head.slot) e] }
  | duties (duties : List ProposerDuty) :
      Hears f head .proposerDuties (.proposerDuties (.ok duties))
        { follower := f, stage := some (.validators duties) }
  | noValidators (duties : List ProposerDuty) (e : Error) :
      Hears f head (.validators duties) (.validators (.error e))
        { follower := f, log := [noValidatorsEntry head.slot e] }
  | validators (duties : List ProposerDuty) (validators : Snapshot) :
      Hears f head (.validators duties) (.validators (.ok validators))
        { follower := { f with refreshed := some (f.epoch head.slot) }
          log := [refreshedEntry (f.epoch head.slot) duties validators] }

/-- What has been heard and logged about a head when it is handled up to a stage. -/
inductive Reaches (f : Follower) (head : HeadEvent) : Stage → List Answer → List LogEntry → Prop
  | syncStatus : Reaches f head .syncStatus [] [headEntry head]
  | proposerDuties (sync : Except Error SyncStatus) (hnew : f.refreshed ≠ some (f.epoch head.slot)) :
      Reaches f head .proposerDuties [.syncStatus sync] [headEntry head, syncEntry sync]
  | validators (sync : Except Error SyncStatus) (duties : List ProposerDuty)
      (hnew : f.refreshed ≠ some (f.epoch head.slot)) :
      Reaches f head (.validators duties) [.syncStatus sync, .proposerDuties (.ok duties)]
        [headEntry head, syncEntry sync]

/-- A head is handled to its end, with all answers heard and all entries logged. -/
def Completes (f : Follower) (head : HeadEvent) (a : Answers) (g : Follower) (heard : List Answer)
    (log : List LogEntry) : Prop :=
  g = (f.handle a head).follower ∧ heard = (f.handle a head).questions.map a.to ∧ log = (f.handle a head).log

/-- How many answers are still to come at most. -/
def Stage.remaining : Stage → Nat
  | .syncStatus => 3
  | .proposerDuties => 2
  | .validators _ => 1

variable {f : Follower} {head : HeadEvent} {stage : Stage} {heard : List Answer} {log : List LogEntry}
  {answer : Answer} {p : Progress}

theorem answered_snoc (f : Follower) (rounds : List (HeadEvent × Answers)) (head : HeadEvent) (a : Answers) :
    f.answered (rounds ++ [(head, a)]) =
      f.answered rounds ++ ((f.handleAll rounds).follower.handle a head).questions.map a.to := by
  induction rounds generalizing f with
  | nil => simp [answered, handleAll]
  | cons round rest ih =>
      simp only [List.cons_append, answered, ih, List.append_assoc]
      rfl

theorem log_handleAll_snoc (f : Follower) (rounds : List (HeadEvent × Answers)) (head : HeadEvent) (a : Answers) :
    (f.handleAll (rounds ++ [(head, a)])).log =
      (f.handleAll rounds).log ++ ((f.handleAll rounds).follower.handle a head).log := by
  rw [handleAll_append]
  simp only [handleAll, List.append_nil]

/-! ### One answer -/

theorem Hears.of_hear (h : f.hear head stage answer = some p) : Hears f head stage answer p := by
  cases stage with
  | syncStatus =>
      cases answer with
      | syncStatus sync =>
          cases h
          split_ifs with hknown
          · exact .known sync hknown
          · exact .new sync hknown
      | _ => cases h
  | proposerDuties =>
      cases answer with
      | proposerDuties result =>
          cases result with
          | error e =>
              cases h
              exact .noDuties e
          | ok duties =>
              cases h
              exact .duties duties
      | _ => cases h
  | validators duties =>
      cases answer with
      | validators result =>
          cases result with
          | error e =>
              cases h
              exact .noValidators duties e
          | ok validators =>
              cases h
              exact .validators duties validators
      | _ => cases h

/-- Any answer to what is asked is heard. -/
theorem exists_hear (f : Follower) (head : HeadEvent) (stage : Stage) (a : Answers) :
    ∃ p, f.hear head stage (a.to (f.asks head stage)) = some p := by
  cases stage with
  | syncStatus => exact ⟨_, rfl⟩
  | proposerDuties =>
      rw [asks, Answers.to]
      cases a.proposerDuties (f.epoch head.slot) <;> exact ⟨_, rfl⟩
  | validators duties =>
      rw [asks, Answers.to]
      cases a.validators head.slot <;> exact ⟨_, rfl⟩

/-- With every answer the end of the handling comes nearer. -/
theorem remaining_lt {next : Stage} (h : Hears f head stage answer p) (hnext : p.stage = some next) :
    next.remaining < stage.remaining := by
  cases h <;> cases hnext
  · exact Nat.lt_succ_self 2
  · exact Nat.lt_succ_self 1

/-! ### One head -/

theorem handle_of_refreshed (hknown : f.refreshed = some (f.epoch head.slot)) (a : Answers) :
    f.handle a head = ⟨f, [.syncStatus], [headEntry head, syncEntry a.syncStatus]⟩ := by
  rw [handle, if_pos hknown]

theorem handle_of_no_duties (hnew : f.refreshed ≠ some (f.epoch head.slot)) {a : Answers} {e : Error}
    (hduties : a.proposerDuties (f.epoch head.slot) = .error e) :
    f.handle a head =
      ⟨f, [.syncStatus, .proposerDuties (f.epoch head.slot)],
        [headEntry head, syncEntry a.syncStatus, noDutiesEntry (f.epoch head.slot) e]⟩ := by
  rw [handle, if_neg hnew, refresh, hduties]
  rfl

theorem handle_of_duties (hnew : f.refreshed ≠ some (f.epoch head.slot)) {a : Answers} {duties : List ProposerDuty}
    (hduties : a.proposerDuties (f.epoch head.slot) = .ok duties) :
    f.handle a head =
      ⟨match a.validators head.slot with
        | .error _ => f
        | .ok _ => { f with refreshed := some (f.epoch head.slot) },
        [.syncStatus, .proposerDuties (f.epoch head.slot), .validators head.slot],
        [headEntry head, syncEntry a.syncStatus,
          match a.validators head.slot with
          | .error e => noValidatorsEntry head.slot e
          | .ok validators => refreshedEntry (f.epoch head.slot) duties validators]⟩ := by
  rw [handle, if_neg hnew, refresh, hduties]
  dsimp only
  cases a.validators head.slot <;> rfl

/-- An answer leads to the next stage, or the head has been handled. -/
theorem Reaches.hear (h : f.Reaches head stage heard log) (hp : Hears f head stage answer p) :
    (∃ next, p.stage = some next ∧ p.follower = f ∧ f.Reaches head next (heard ++ [answer]) (log ++ p.log)) ∨
      p.stage = none ∧ ∃ a, f.Completes head a p.follower (heard ++ [answer]) (log ++ p.log) := by
  -- the answers that are not asked for may be any
  let unasked {α : Type} : Except Error α := .error (.config .noBuffer)
  cases hp with
  | known sync hknown =>
      cases h
      refine .inr ⟨rfl, ⟨sync, fun _ => unasked, fun _ => unasked⟩, ?_⟩
      rw [Completes, handle_of_refreshed hknown]
      exact ⟨rfl, rfl, rfl⟩
  | new sync hnew =>
      cases h
      exact .inl ⟨.proposerDuties, rfl, rfl, .proposerDuties sync hnew⟩
  | noDuties e =>
      cases h with
      | proposerDuties sync hnew =>
          refine .inr ⟨rfl, ⟨sync, fun _ => .error e, fun _ => unasked⟩, ?_⟩
          rw [Completes, handle_of_no_duties hnew rfl]
          exact ⟨rfl, rfl, rfl⟩
  | duties duties =>
      cases h with
      | proposerDuties sync hnew => exact .inl ⟨.validators duties, rfl, rfl, .validators sync duties hnew⟩
  | noValidators duties e =>
      cases h with
      | validators sync _ hnew =>
          refine .inr ⟨rfl, ⟨sync, fun _ => .ok duties, fun _ => .error e⟩, ?_⟩
          rw [Completes, handle_of_duties hnew rfl]
          exact ⟨rfl, rfl, rfl⟩
  | validators duties validators =>
      cases h with
      | validators sync _ hnew =>
          refine .inr ⟨rfl, ⟨sync, fun _ => .ok duties, fun _ => .ok validators⟩, ?_⟩
          rw [Completes, handle_of_duties hnew rfl]
          exact ⟨rfl, rfl, rfl⟩

end Follower

end ChainHead
