import ChainHead.Proofs.Service.Timeline

/-! Errors that end their session. What is told behind such an error is the end of the attempt, at the same time, and
nothing else until a whole pause is over; then the next attempt begins. -/

namespace ChainHead

/-- What is told of a run behind an error that ended its session, as far as the run has come: the end of the attempt at
the same time, and nothing more while the service pauses or if it ends; when the whole delay has passed, that it was
waited for; and then the beginning of the next attempt. -/
inductive Aftermath (s : Service) (time : Nat) : Clocked → List (Nat × Event) → Prop
  | pausing {c : Clocked} (state : StreamState) (hphase : c.feed.phase = .pausing) (hpausedAt : c.pausedAt = time)
      (hstate : c.feed.state = .connecting) : Aftermath s time c [(time, .logged (s.endedEntry state))]
  | finished {c : Clocked} (state : StreamState) (hfinished : c.feed.IsFinished) :
      Aftermath s time c [(time, .logged (s.endedEntry state))]
  | starting {c : Clocked} (state : StreamState) {woken : Nat} (hpause : time + s.reconnectDelay.toNat ≤ woken)
      (hnow : woken ≤ c.now) (hphase : c.feed.phase = .starting) (hstate : c.feed.state = .connecting) :
      Aftermath s time c [(time, .logged (s.endedEntry state)), (woken, .waited)]
  | resumed {c : Clocked} (state : StreamState) {woken began : Nat} (hpause : time + s.reconnectDelay.toNat ≤ woken)
      (hbegan : woken ≤ began) (rest : List (Nat × Event)) :
      Aftermath s time c ((time, .logged (s.endedEntry state)) :: (woken, .waited) ::
        (began, .logged (s.connectingEntry .connecting)) :: rest)

namespace Feed.Step

variable {s : Service} {f g : Feed} {action : Action}

/-- Nothing is told of what comes from outside, and it changes nothing of what the service does. -/
theorem of_isOwn_eq_false (h : Step s f action g) (hown : action.isOwn = false) :
    action.events f g = [] ∧ g.phase = f.phase ∧ g.state = f.state := by
  have hnothing := (List.append_nil f.log).symm
  cases h with
  | cancel => exact ⟨Action.events_eq hnothing _, rfl, rfl⟩
  | dropReceiver => exact ⟨Action.events_eq hnothing _, rfl, rfl⟩
  | receive => exact ⟨Action.events_eq hnothing _, rfl, rfl⟩
  | _ => cases hown

/-- An error that is not skipped ends its session. -/
theorem of_broken {error : Error} (h : Step s f (.yield (.failed error)) g) (herror : error.isSkippable = false) :
    Action.events (.yield (.failed error)) f g
        = [.yielded (.failed error), .logged (s.endedEntry f.state)] ∧
      f.phase = .waiting ∧ g.phase = .pausing ∧ g.state = .connecting := by
  cases h with
  | yield _ hphase =>
      have hlog := List.append_assoc f.log [s.failedEntry error] [s.endedEntry f.state]
      rw [take, if_neg (by simp [herror])]
      refine ⟨?_, hphase, rfl, rfl⟩
      rw [Action.events_eq hlog]
      rfl

/-- A service that has ended does nothing any more. -/
theorem isOwn_eq_false_of_isFinished (h : Step s f action g) (hf : f.IsFinished) : action.isOwn = false := by
  obtain ⟨exit, hphase⟩ := hf
  cases h with
  | cancel => rfl
  | dropReceiver => rfl
  | receive => rfl
  | connect hstarting => cases hphase.symm.trans hstarting
  | yield item hwaiting => cases hphase.symm.trans hwaiting
  | close hwaiting => cases hphase.symm.trans hwaiting
  | send hdelivering => cases hphase.symm.trans hdelivering
  | wake hpausing => cases hphase.symm.trans hpausing
  | stop hwaiting => simp [isWaiting, hphase] at hwaiting

end Feed.Step

/-- What is told of an action as yielded is what it brings. -/
theorem Action.eq_of_yielded_mem {action : Action} {f g : Feed} {item : StreamItem}
    (h : .yielded item ∈ action.events f g) : action = .yield item := by
  rw [events, List.mem_append] at h
  rcases h with h | h
  · cases action with
    | yield other => rw [Event.yielded.inj (List.mem_singleton.mp h)]
    | wake => cases List.mem_singleton.mp h
    | _ => cases h
  · obtain ⟨entry, -, hentry⟩ := List.mem_map.mp h
    cases hentry

/-- What is told of the beginning of an attempt. -/
theorem Action.exists_events_connect (s : Service) (f : Feed) :
    ∃ rest, Action.connect.events f (f.connect s) = .logged (s.connectingEntry f.state) :: rest := by
  cases htarget : Stream.target s.url with
  | ok target =>
      rw [Feed.connect_of_ok htarget]
      refine ⟨[], ?_⟩
      rw [events_eq rfl]
      rfl
  | error fault =>
      have hlog := List.append_assoc f.log [s.connectingEntry f.state, s.unsubscribedEntry fault]
        [s.endedEntry f.state]
      rw [Feed.connect_of_error htarget]
      refine ⟨[.logged (s.endedEntry f.state)], ?_⟩
      rw [events_eq hlog]
      rfl

namespace Aftermath

variable {s : Service} {time : Nat} {c : Clocked} {back : List (Nat × Event)} {action : Action} {g : Feed}

theorem pass (h : Aftermath s time c back) (later : Nat) : Aftermath s time { c with now := c.now + later } back := by
  cases h with
  | pausing state hphase hpausedAt hstate => exact .pausing state hphase hpausedAt hstate
  | finished state hfinished => exact .finished state hfinished
  | starting state hpause hnow hphase hstate =>
      exact .starting state hpause (Nat.le_trans hnow (Nat.le_add_right _ _)) hphase hstate
  | resumed state hpause hbegan rest => exact .resumed state hpause hbegan rest

theorem act (h : Aftermath s time c back) (hallows : c.Allows s action g) :
    Aftermath s time (c.goTo g) (back ++ (action.events c.feed g).map (c.now, ·)) := by
  have hstep := Feed.Step.of_step? hallows.1
  cases hown : action.isOwn with
  | false =>
      obtain ⟨hevents, hsame, hsameState⟩ := hstep.of_isOwn_eq_false hown
      rw [hevents, List.map_nil, List.append_nil]
      cases h with
      | pausing state hphase hpausedAt hstate =>
          refine .pausing state (hsame.trans hphase) ?_ (hsameState.trans hstate)
          rw [Clocked.goTo, if_pos hphase]
          exact hpausedAt
      | finished state hfinished => exact .finished state (hstep.of_isFinished hfinished).1
      | starting state hpause hnow hphase hstate =>
          exact .starting state hpause hnow (hsame.trans hphase) (hsameState.trans hstate)
      | resumed state hpause hbegan rest => exact .resumed state hpause hbegan rest
  | true =>
      cases h with
      | pausing state hphase hpausedAt hstate =>
          cases hexit : c.feed.exit? with
          | none =>
              obtain ⟨rfl, rfl, hpause⟩ := (Clocked.allows_iff_of_pausing hphase hexit hown).mp hallows
              rw [Action.events_wake]
              exact .starting state (hpausedAt ▸ hpause) (Nat.le_refl _) rfl hstate
          | some exit =>
              have hwaiting : c.feed.isWaiting = true := by simp [Feed.isWaiting, hphase]
              obtain ⟨rfl, rfl⟩ := (Feed.step?_eq_some_iff_of_exit? hwaiting hexit hown).mp hallows.1
              have hevents : Action.stop.events c.feed (c.feed.finish s exit) = [] := by
                rw [Action.events_eq rfl]
                cases exit <;> rfl
              rw [hevents]
              exact .finished state ⟨exit, rfl⟩
      | finished state hfinished => cases hown.symm.trans (hstep.isOwn_eq_false_of_isFinished hfinished)
      | starting state hpause hnow hphase hstate =>
          obtain ⟨rfl, rfl⟩ := (Clocked.allows_iff_of_starting hphase hown).mp hallows
          obtain ⟨rest, hevents⟩ := Action.exists_events_connect s c.feed
          rw [hevents, hstate]
          exact .resumed state hpause hnow _
      | resumed state hpause hbegan rest => exact .resumed state hpause hbegan _

end Aftermath

/-- Behind an error that is not skipped comes what follows an error that ended its session. -/
theorem Timeline.aftermath {s : Service} {room : Nat} {actions : List Action} {record : List (Nat × Event)}
    {c : Clocked} (h : Timeline s room actions record c) {front back : List (Nat × Event)} {time : Nat} {error : Error}
    (hrecord : record = front ++ (time, .yielded (.failed error)) :: back) (herror : error.isSkippable = false) :
    Aftermath s time c back := by
  induction h generalizing front back with
  | here => simp at hrecord
  | pass later _ ih => exact (ih hrecord).pass later
  | @act actions record c action g hallows _ ih =>
      -- the error was told of this action
      have hnow (rest : List (Nat × Event)) (hevents : (action.events c.feed g).map (c.now, ·)
          = rest ++ (time, .yielded (.failed error)) :: back) : Aftermath s time (c.goTo g) back := by
        have hmem : (time, .yielded (.failed error)) ∈ (action.events c.feed g).map (c.now, ·) := by
          simp [hevents]
        obtain ⟨event, hevent, heq⟩ := List.mem_map.mp hmem
        obtain ⟨rfl, rfl⟩ := Prod.mk.inj heq
        obtain rfl := Action.eq_of_yielded_mem hevent
        obtain ⟨hbroken, hwaiting, hpausing, hstate⟩ := (Feed.Step.of_step? hallows.1).of_broken herror
        rw [hbroken] at hevents
        have hback : back = [(c.now, .logged (s.endedEntry c.feed.state))] := by
          cases rest with
          | nil => exact (List.cons.inj hevents).2.symm
          | cons first rest => simpa [List.append_eq_cons_iff] using (List.cons.inj hevents).2.symm
        rw [hback]
        refine .pausing _ hpausing ?_ hstate
        rw [Clocked.goTo, if_neg (by simp [hwaiting])]
      rcases List.append_eq_append_iff.mp hrecord with ⟨rest, -, hevents⟩ | ⟨rest, hold, hback⟩
      · exact hnow rest hevents
      · cases rest with
        | nil => exact hnow [] hback.symm
        | cons first rest =>
            obtain ⟨rfl, rfl⟩ := List.cons.inj hback
            exact (ih hold).act hallows

end ChainHead
