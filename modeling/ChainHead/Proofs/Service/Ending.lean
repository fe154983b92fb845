import ChainHead.Proofs.Service.Course

/-! How a service ends. It ends only when it has been told to, or when its listener is gone, whatever its sessions
do and even if there can be none. Wherever it waits then, to end is all that it can do, and the call to end comes
before the listener. So a service that has been told to end does at most two things more, of which none hands on a
head, takes anything from a session or asks for one. -/

namespace ChainHead

namespace Feed

/-- What a service still does once it has been told to end. -/
def lastActions (f : Feed) : List Action :=
  match f.phase with
  | .starting => [.connect, .stop]
  | .waiting | .delivering _ | .pausing => [.stop]
  | .finished _ => []

variable {s : Service} {f g : Feed} {action : Action} {actions : List Action} {exit : Exit} {room : Nat}

/-! ### What ends a service -/

theorem isWaiting_connect (f : Feed) : (f.connect s).isWaiting = true := by
  rw [connect]
  cases Stream.target s.url <;> rfl

theorem isWaiting_take (hphase : f.phase = .waiting) (item : StreamItem) : (f.take s item).isWaiting = true := by
  cases item with
  | connected => simp [take, note, isWaiting, hphase]
  | head event => rfl
  | failed error =>
      rw [take]
      split_ifs
      · simp [note, isWaiting, hphase]
      · rfl

theorem Step.cancelled_iff (h : Step s f action g) :
    g.cancelled = true ↔ f.cancelled = true ∨ action = .cancel := by
  cases h with
  | cancel => simp
  | connect => rw [connect_eq]; simp
  | yield item => rw [take_eq]; simp
  | _ => simp [pause, finish, note]

theorem Step.listening_iff (h : Step s f action g) :
    g.listening = false ↔ f.listening = false ∨ action = .dropReceiver := by
  cases h with
  | dropReceiver => simp
  | connect => rw [connect_eq]; simp
  | yield item => rw [take_eq]; simp
  | _ => simp [pause, finish, note]

theorem cancelled_iff_mem (h : (fresh room).run? s actions = some f) :
    f.cancelled = true ↔ .cancel ∈ actions := by
  refine run?_induction (P := fun actions f => f.cancelled = true ↔ .cancel ∈ actions) (by simp [fresh])
    (fun front e action g _ hstep ih => ?_) actions h
  rw [hstep.cancelled_iff, ih, List.mem_append, List.mem_singleton, eq_comm (a := action)]

theorem cancelled_of_run? (hcancelled : f.cancelled = true) (h : f.run? s actions = some g) :
    g.cancelled = true :=
  run?_induction (P := fun _ g => g.cancelled = true) hcancelled
    (fun _ _ _ _ _ hstep ih => hstep.cancelled_iff.mpr (.inl ih)) actions h

theorem listening_iff_mem (h : (fresh room).run? s actions = some f) :
    f.listening = false ↔ .dropReceiver ∈ actions := by
  refine run?_induction (P := fun actions f => f.listening = false ↔ .dropReceiver ∈ actions) (by simp [fresh])
    (fun front e action g _ hstep ih => ?_) actions h
  rw [hstep.listening_iff, ih, List.mem_append, List.mem_singleton, eq_comm (a := action)]

/-- A service has ended before, or ends with this step and has a reason to. -/
theorem Step.of_finished (h : Step s f action g) (hphase : g.phase = .finished exit) :
    f.phase = .finished exit ∧ g.log = f.log ∨ action = .stop ∧ f.exit? = some exit ∧ g = f.finish s exit := by
  cases h with
  | cancel => exact .inl ⟨hphase, rfl⟩
  | dropReceiver => exact .inl ⟨hphase, rfl⟩
  | receive => exact .inl ⟨hphase, rfl⟩
  | connect =>
      have hwaiting := isWaiting_connect (s := s) f
      simp [isWaiting, hphase] at hwaiting
  | yield item hwaits =>
      have hwaiting := isWaiting_take (s := s) hwaits item
      simp [isWaiting, hphase] at hwaiting
  | close => cases hphase
  | send => cases hphase
  | wake => cases hphase
  | stop hwaiting hexit =>
      cases hphase
      exact .inr ⟨rfl, hexit, rfl⟩

/-- A service ends with a reason, and tells it last of all. -/
theorem reason_of_finished (h : (fresh room).run? s actions = some f) (hphase : f.phase = .finished exit) :
    (exit = .shutdown ∧ .cancel ∈ actions ∨ exit = .consumerGone ∧ .dropReceiver ∈ actions) ∧
      f.log.getLast? = some (s.exitEntry exit) := by
  refine run?_induction (P := fun actions f => f.phase = .finished exit →
    (exit = .shutdown ∧ .cancel ∈ actions ∨ exit = .consumerGone ∧ .dropReceiver ∈ actions) ∧
      f.log.getLast? = some (s.exitEntry exit)) (by simp [fresh])
    (fun front e action g hrun hstep ih hphase => ?_) actions h hphase
  rcases hstep.of_finished hphase with ⟨hbefore, hlog⟩ | ⟨-, hexit, rfl⟩
  · obtain ⟨hreason, hlast⟩ := ih hbefore
    refine ⟨?_, hlog ▸ hlast⟩
    exact hreason.imp (And.imp_right (List.mem_append_left _)) (And.imp_right (List.mem_append_left _))
  · refine ⟨?_, by simp [finish, note]⟩
    cases exit with
    | shutdown =>
        have hmem := (cancelled_iff_mem hrun).mp (exit?_eq_shutdown_iff.mp hexit)
        exact .inl ⟨rfl, List.mem_append_left _ hmem⟩
    | consumerGone =>
        have hmem := (listening_iff_mem hrun).mp (exit?_eq_consumerGone_iff.mp hexit).2
        exact .inr ⟨rfl, List.mem_append_left _ hmem⟩

/-! ### What is left to do -/

/-- A service that waits and has a reason to end can do nothing else. -/
theorem step?_eq_some_iff_of_exit? (hwaiting : f.isWaiting = true) (hexit : f.exit? = some exit)
    (hown : action.isOwn = true) : f.step? s action = some g ↔ action = .stop ∧ g = f.finish s exit := by
  rw [step?_eq_some_iff]
  constructor
  · intro h
    cases h with
    | cancel => cases hown
    | dropReceiver => cases hown
    | receive => cases hown
    | connect hstarting => simp [isWaiting, hstarting] at hwaiting
    | yield item _ hopen => cases hexit.symm.trans hopen
    | close _ hopen => cases hexit.symm.trans hopen
    | send _ hopen => cases hexit.symm.trans hopen
    | wake _ hopen => cases hexit.symm.trans hopen
    | stop _ hreason =>
        cases hexit.symm.trans hreason
        exact ⟨rfl, rfl⟩
  · rintro ⟨rfl, rfl⟩
    exact .stop hwaiting hexit

theorem lastActions_of_isWaiting (h : f.isWaiting = true) : f.lastActions = [.stop] := by
  rw [lastActions]
  rw [isWaiting] at h
  split <;> simp_all

/-- Of a service that has been told to end, what it does is taken from what it still has to do. -/
theorem Step.lastActions_eq (h : Step s f action g) (hcancelled : f.cancelled = true) :
    f.lastActions = (if action.isOwn then [action] else []) ++ g.lastActions := by
  have hexit := exit?_eq_shutdown_iff.mpr hcancelled
  cases h with
  | cancel => rfl
  | dropReceiver => rfl
  | receive => rfl
  | connect hphase =>
      rw [lastActions_of_isWaiting (isWaiting_connect f), lastActions, hphase]
      rfl
  | yield item _ hopen => cases hexit.symm.trans hopen
  | close _ hopen => cases hexit.symm.trans hopen
  | send _ hopen => cases hexit.symm.trans hopen
  | wake _ hopen => cases hexit.symm.trans hopen
  | stop hwaiting =>
      rw [lastActions_of_isWaiting hwaiting]
      rfl

theorem run?_lastActions (hexit : f.exit? = some exit) (hopen : ¬f.IsFinished) :
    ∃ g, f.run? s f.lastActions = some g ∧ g.phase = .finished exit := by
  have hstop {e : Feed} (hwaiting : e.isWaiting = true) (hreason : e.exit? = some exit) :
      e.run? s [.stop] = some (e.finish s exit) :=
    run?_singleton.mpr (.stop hwaiting hreason)
  by_cases hstarting : f.phase = .starting
  · refine ⟨(f.connect s).finish s exit, ?_, rfl⟩
    have hreason : (f.connect s).exit? = some exit := by
      rw [connect_eq]
      exact hexit
    rw [lastActions, hstarting, run?, (Step.connect hstarting).step?_eq, Option.bind_some]
    exact hstop (isWaiting_connect f) hreason
  · have hwaiting : f.isWaiting = true := by
      cases hphase : f.phase with
      | starting => exact absurd hphase hstarting
      | finished exit => exact absurd ⟨exit, hphase⟩ hopen
      | _ => rw [isWaiting, hphase]
    exact ⟨f.finish s exit, lastActions_of_isWaiting hwaiting ▸ hstop hwaiting hexit, rfl⟩

/-- Whatever happens after a service has been told to end, it does what it had to do, and no head enters the
channel. -/
theorem lastActions_of_run? {more : List Action} (hcancelled : f.cancelled = true) (h : f.run? s more = some g) :
    more.filter Action.isOwn ++ g.lastActions = f.lastActions ∧ f.entered s more = [] := by
  induction more generalizing f with
  | nil =>
      cases h
      exact ⟨rfl, rfl⟩
  | cons action rest ih =>
      obtain ⟨e, hstep, hrun⟩ := Option.bind_eq_some_iff.mp h
      have hstep' := Step.of_step? hstep
      obtain ⟨hactions, hentered⟩ := ih (hstep'.cancelled_iff.mpr (.inl hcancelled)) hrun
      constructor
      · rw [hstep'.lastActions_eq hcancelled, ← hactions, ← List.append_assoc, List.filter_cons]
        split <;> rfl
      · have hentering : f.entering action = [] := by
          cases hstep' with
          | send _ hopen => cases (exit?_eq_shutdown_iff.mpr hcancelled).symm.trans hopen
          | _ => rfl
        rw [entered, along, hstep, hentering]
        exact hentered

end Feed

namespace World

variable {start w v : World} {actions more : List Action}

/-- In a world whose service has been told to end nothing is asked for, and nothing is taken from a session. -/
theorem Leg.quiet_of_cancelled (h : w.Leg more v) (hcancelled : w.feed.cancelled = true) :
    v.requests = w.requests ∧ v.network = w.network ∧ (v.session = w.session ∨ v.session = none) := by
  have hexit := Feed.exit?_eq_shutdown_iff.mpr hcancelled
  cases h with
  | act => exact ⟨rfl, rfl, .inl rfl⟩
  | begin => exact ⟨rfl, rfl, .inr rfl⟩
  | ask _ hopen => cases hexit.symm.trans hopen
  | item _ hopen => cases hexit.symm.trans hopen

theorem Course.quiet_of_cancelled (h : start.Course actions w) (hcancelled : start.feed.cancelled = true) :
    w.requests = start.requests ∧ w.network = start.network ∧ (w.session = start.session ∨ w.session = none) := by
  induction h with
  | here => exact ⟨rfl, rfl, .inl rfl⟩
  | on hcourse hnext ih =>
      have hstill := Feed.cancelled_of_run? hcancelled hcourse.run?_eq
      obtain ⟨hrequests, hnetwork, hsession⟩ := hnext.leg.quiet_of_cancelled hstill
      refine ⟨hrequests.trans ih.1, hnetwork.trans ih.2.1, ?_⟩
      rcases hsession with heq | hnone
      · rw [heq]
        exact ih.2.2
      · exact .inr hnone

end World

/-- Over any run, a service ends only if it has been told to or its listener is gone, and logs which of the two last of
all. Wherever it waits then, ending is the one thing that it can do, and it ends as told if both are so; from anywhere
else it comes to such a point. Once it has been told to end, it does no more than what it had to do: no head enters
the channel, and in no world is anything taken from a session or asked for. -/
theorem ends_only_with_reason (s : Service) (room : Nat) (actions : List Action) (f : Feed)
    (h : (Feed.fresh room).run? s actions = some f) :
    (∀ exit, f.phase = .finished exit →
        (exit = .shutdown ∧ .cancel ∈ actions ∨ exit = .consumerGone ∧ .dropReceiver ∈ actions) ∧
          f.log.getLast? = some (s.exitEntry exit)) ∧
      (f.isWaiting = true → .cancel ∈ actions → ∀ action g, action.isOwn = true →
        (f.step? s action = some g ↔ action = .stop ∧ g = f.finish s .shutdown)) ∧
      (f.isWaiting = true → .dropReceiver ∈ actions → .cancel ∉ actions → ∀ action g, action.isOwn = true →
        (f.step? s action = some g ↔ action = .stop ∧ g = f.finish s .consumerGone)) ∧
      (∀ exit, f.exit? = some exit → ¬f.IsFinished →
        ∃ g, f.run? s f.lastActions = some g ∧ g.phase = .finished exit) ∧
      (.cancel ∈ actions →
        (∀ more g, f.run? s more = some g →
          more.filter Action.isOwn ++ g.lastActions = f.lastActions ∧ f.entered s more = []) ∧
        ∀ w more v, w.feed = f → World.Course w more v →
          v.requests = w.requests ∧ v.network = w.network ∧ (v.session = w.session ∨ v.session = none)) := by
  have hcancelled := Feed.cancelled_iff_mem h
  have hlistening := Feed.listening_iff_mem h
  refine ⟨fun exit hphase => Feed.reason_of_finished h hphase, fun hwaiting hmem action g hown => ?_,
    fun hwaiting hmem hnot action g hown => ?_, fun exit hexit hopen => Feed.run?_lastActions hexit hopen,
    fun hmem => ⟨fun more g hrun => ?_, fun w more v hfeed hcourse => ?_⟩⟩
  · have hexit := Feed.exit?_eq_shutdown_iff.mpr (hcancelled.mpr hmem)
    exact Feed.step?_eq_some_iff_of_exit? hwaiting hexit hown
  · have hopen : f.cancelled = false := Bool.eq_false_iff.mpr (mt hcancelled.mp hnot)
    have hexit := Feed.exit?_eq_consumerGone_iff.mpr ⟨hopen, hlistening.mpr hmem⟩
    exact Feed.step?_eq_some_iff_of_exit? hwaiting hexit hown
  · exact Feed.lastActions_of_run? (hcancelled.mpr hmem) hrun
  · exact hcourse.quiet_of_cancelled (hfeed ▸ hcancelled.mpr hmem)

/-- A service of which the base URL has nothing below it. -/
def Service.nowhere : Service where
  name := "nimbus"
  url := ⟨"urn", .undivided "node", none, none⟩

/-- The second pause is on when the listener goes away and the call to end comes. -/
def Action.inVain : List Action := [.connect, .wake, .connect, .dropReceiver, .cancel]

theorem ends_only_with_reason_inVain :
    ∃ f, (Feed.fresh 1).run? .nowhere Action.inVain = some f ∧ f.isWaiting = true ∧
      (∀ action g, action.isOwn = true →
        (f.step? .nowhere action = some g ↔ action = .stop ∧ g = f.finish .nowhere .shutdown)) ∧
      ∀ more g, f.run? .nowhere more = some g → more.filter Action.isOwn ++ g.lastActions = f.lastActions := by
  have hpossible : ((Feed.fresh 1).run? .nowhere Action.inVain).any Feed.isWaiting = true := by decide +kernel
  obtain ⟨f, hrun, hwaiting⟩ := (Option.any_eq_true _ _).mp hpossible
  obtain ⟨-, hended, -, -, htold⟩ := ends_only_with_reason .nowhere 1 Action.inVain f hrun
  have hmem : .cancel ∈ Action.inVain := by decide
  exact ⟨f, hrun, hwaiting, hended hwaiting hmem, fun more g hmore => ((htold hmem).1 more g hmore).1⟩

end ChainHead
