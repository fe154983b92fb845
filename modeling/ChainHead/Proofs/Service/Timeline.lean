import ChainHead.Proofs.Service.Ending

/-! A service over time. Time passes between its actions, and a pause is over only when the delay has passed since it
began. Told of a run are the log entries about the beginning and the end of attempts, the items of sessions, and the
ends of pauses, each with its time. Any run can take place over time, and as long as a service has no reason to end,
it comes to the end of any number of pauses. -/

namespace ChainHead

inductive Event where
  | logged (entry : LogEntry)
  | yielded (item : StreamItem)
  | waited
deriving DecidableEq

/-- The entry that an event is about, if it is about one. -/
def Event.logged? : Event → Option LogEntry
  | .logged entry => some entry
  | _ => none

/-- Whether an entry is about the beginning or the end of an attempt. -/
def isTurn (entry : LogEntry) : Bool :=
  entry.message = "Connecting to head event stream" || entry.message = "Head event stream ended, reconnecting"

def Action.told : Action → List Event
  | .yield item => [.yielded item]
  | .wake => [.waited]
  | _ => []

/-- What is told of an action that leads from one state to another: the action, and what has been logged. -/
def Action.events (action : Action) (f g : Feed) : List Event :=
  action.told ++ ((g.log.drop f.log.length).filter isTurn).map .logged

theorem Action.events_eq {f g : Feed} {entries : List LogEntry} (hlog : g.log = f.log ++ entries) (action : Action) :
    action.events f g = action.told ++ (entries.filter isTurn).map .logged := by
  rw [events, hlog, List.drop_left]

theorem Action.events_wake (f : Feed) : Action.wake.events f { f with phase := .starting } = [.waited] :=
  events_eq (List.append_nil f.log).symm .wake

/-- A service with a clock in milliseconds, and the time at which it began to pause if it pauses. -/
structure Clocked where
  feed : Feed
  now : Nat := 0
  pausedAt : Nat := 0

namespace Clocked

/-- Whether an action is possible and leads to a state. A pause takes as long as the delay. -/
def Allows (s : Service) (c : Clocked) (action : Action) (g : Feed) : Prop :=
  c.feed.step? s action = some g ∧ (action = .wake → c.pausedAt + s.reconnectDelay.toNat ≤ c.now)

def goTo (c : Clocked) (g : Feed) : Clocked :=
  { c with
    feed := g
    pausedAt := if c.feed.phase = .pausing then c.pausedAt else c.now }

variable {s : Service} {c : Clocked} {action : Action} {g : Feed}

/-- A service that is about to begin an attempt does nothing else. -/
theorem allows_iff_of_starting (hphase : c.feed.phase = .starting) (hown : action.isOwn = true) :
    c.Allows s action g ↔ action = .connect ∧ g = c.feed.connect s := by
  rw [Allows, Feed.step?_eq_some_iff]
  constructor
  · rintro ⟨hstep, -⟩
    cases hstep with
    | connect => exact ⟨rfl, rfl⟩
    | cancel => cases hown
    | dropReceiver => cases hown
    | receive => cases hown
    | yield item hwaiting => cases hphase.symm.trans hwaiting
    | close hwaiting => cases hphase.symm.trans hwaiting
    | send hdelivering => cases hphase.symm.trans hdelivering
    | wake hpausing => cases hphase.symm.trans hpausing
    | stop hwaiting => simp [Feed.isWaiting, hphase] at hwaiting
  · rintro ⟨rfl, rfl⟩
    exact ⟨.connect hphase, by simp⟩

/-- A service that pauses does nothing until the delay has passed, and begins anew then. -/
theorem allows_iff_of_pausing (hphase : c.feed.phase = .pausing) (hexit : c.feed.exit? = none)
    (hown : action.isOwn = true) :
    c.Allows s action g ↔
      action = .wake ∧ g = { c.feed with phase := .starting } ∧ c.pausedAt + s.reconnectDelay.toNat ≤ c.now := by
  rw [Allows, Feed.step?_eq_some_iff]
  constructor
  · rintro ⟨hstep, htime⟩
    cases hstep with
    | wake => exact ⟨rfl, rfl, htime rfl⟩
    | cancel => cases hown
    | dropReceiver => cases hown
    | receive => cases hown
    | connect hstarting => cases hphase.symm.trans hstarting
    | yield item hwaiting => cases hphase.symm.trans hwaiting
    | close hwaiting => cases hphase.symm.trans hwaiting
    | send hdelivering => cases hphase.symm.trans hdelivering
    | stop _ hreason => cases hexit.symm.trans hreason
  · rintro ⟨rfl, rfl, htime⟩
    exact ⟨.wake hphase hexit, fun _ => htime⟩

end Clocked

/-- A run over time from the beginning of a service, with its actions and what is told of it. -/
inductive Timeline (s : Service) (room : Nat) : List Action → List (Nat × Event) → Clocked → Prop
  | here : Timeline s room [] [] { feed := Feed.fresh room }
  | pass {actions : List Action} {record : List (Nat × Event)} {c : Clocked} (time : Nat)
      (h : Timeline s room actions record c) : Timeline s room actions record { c with now := c.now + time }
  | act {actions : List Action} {record : List (Nat × Event)} {c : Clocked} {action : Action} {g : Feed}
      (hallows : c.Allows s action g) (h : Timeline s room actions record c) :
      Timeline s room (actions ++ [action]) (record ++ (action.events c.feed g).map (c.now, ·)) (c.goTo g)

/-! ### Runs over time -/

namespace Timeline

variable {s : Service} {room : Nat} {actions : List Action} {record : List (Nat × Event)} {c : Clocked}

theorem run?_eq (h : Timeline s room actions record c) : (Feed.fresh room).run? s actions = some c.feed := by
  induction h with
  | here => rfl
  | pass _ _ ih => exact ih
  | act hallows _ ih => exact Feed.run?_snoc.mpr ⟨_, ih, .of_step? hallows.1⟩

/-- What is told is told in the order of time. -/
theorem sorted (h : Timeline s room actions record c) :
    (record.map Prod.fst).Pairwise (· ≤ ·) ∧ ∀ time ∈ record.map Prod.fst, time ≤ c.now := by
  induction h with
  | here => simp
  | pass time _ ih => exact ⟨ih.1, fun t ht => Nat.le_trans (ih.2 t ht) (Nat.le_add_right _ time)⟩
  | @act actions record c action g _ _ ih =>
      have hnow : ∀ t ∈ ((action.events c.feed g).map (c.now, ·)).map Prod.fst, t = c.now := by
        simp
      rw [List.map_append, List.pairwise_append]
      refine ⟨⟨ih.1, ?_, ?_⟩, ?_⟩
      · exact List.pairwise_of_forall_mem_list fun t ht u hu => Nat.le_of_eq ((hnow t ht).trans (hnow u hu).symm)
      · exact fun t ht u hu => hnow u hu ▸ ih.2 t ht
      · intro t ht
        rcases List.mem_append.mp ht with ht | ht
        · exact ih.2 t ht
        · exact Nat.le_of_eq (hnow t ht)

/-- All entries of the log about the beginning and the end of attempts are told, and no others. -/
theorem log_eq (h : Timeline s room actions record c) :
    c.feed.log.filter isTurn = record.filterMap fun told => told.2.logged? := by
  induction h with
  | here => rfl
  | pass _ _ ih => exact ih
  | @act actions record c action g hallows _ ih =>
      obtain ⟨entries, hlog⟩ := (Feed.Step.of_step? hallows.1).exists_log_eq
      have htold : action.told.filterMap Event.logged? = [] := by cases action <;> rfl
      have hentries (entries : List LogEntry) : (entries.map Event.logged).filterMap Event.logged? = entries := by
        rw [List.filterMap_map]
        exact List.filterMap_some
      have hevents : (action.events c.feed g).filterMap Event.logged? = entries.filter isTurn := by
        rw [Action.events_eq hlog, List.filterMap_append, htold, hentries, List.nil_append]
      have hfeed : (c.goTo g).feed.log = c.feed.log ++ entries := hlog
      rw [hfeed, List.filter_append, ih, List.filterMap_append, List.filterMap_map, ← hevents]
      rfl

/-- Any run can take place over time. -/
theorem exists_of_run? {f : Feed} (h : (Feed.fresh room).run? s actions = some f) :
    ∃ record c, Timeline s room actions record c ∧ c.feed = f := by
  refine Feed.run?_induction (P := fun actions f => ∃ record c, Timeline s room actions record c ∧ c.feed = f)
    ⟨_, _, .here, rfl⟩ (fun front e action g _ hstep ih => ?_) actions h
  obtain ⟨record, c, hline, rfl⟩ := ih
  have hlate : Clocked.Allows s { c with now := c.now + (c.pausedAt + s.reconnectDelay.toNat) } action g :=
    ⟨hstep.step?_eq, fun _ => Nat.le_add_left _ _⟩
  exact ⟨_, _, .act hlate (.pass _ hline), rfl⟩

end Timeline

/-! ### Without end -/

namespace Feed

variable {s : Service} {f : Feed}

theorem run?_receive_all (hlistening : f.listening = true) :
    f.run? s (List.replicate f.channel.length .receive) = some { f with channel := [] } := by
  generalize hchannel : f.channel = channel
  induction channel generalizing f with
  | nil =>
      have hsame : { f with channel := [] } = f := by rw [← hchannel]
      rw [hsame]
      rfl
  | cons head rest ih =>
      rw [List.length_cons, List.replicate_succ, run?, (Step.receive hchannel hlistening).step?_eq, Option.bind_some]
      exact ih hlistening rfl

/-- A service that has no reason to end comes to its next pause. -/
theorem exists_run?_pausing (hexit : f.exit? = none) (hopen : ¬f.IsFinished) (hroom : 0 < f.capacity) :
    ∃ more g, f.run? s more = some g ∧ .wake ∉ more ∧ g.phase = .pausing ∧ g.exit? = none := by
  have hclose {e : Feed} (hphase : e.phase = .waiting) (hexit : e.exit? = none) :
      e.run? s [.close] = some (e.pause s) := run?_singleton.mpr (.close hphase hexit)
  cases hphase : f.phase with
  | starting =>
      have hconnect := (Step.connect (s := s) hphase).step?_eq
      have hexit' : (f.connect s).exit? = none := by
        rw [connect_eq]
        exact hexit
      cases htarget : Stream.target s.url with
      | ok target =>
          refine ⟨[.connect, .close], (f.connect s).pause s, ?_, by simp, rfl, hexit'⟩
          rw [run?, hconnect, Option.bind_some]
          exact hclose (by rw [connect_of_ok htarget]) hexit'
      | error error =>
          refine ⟨[.connect], f.connect s, run?_singleton.mpr (.connect hphase), by simp, ?_, hexit'⟩
          rw [connect_of_error htarget]
          rfl
  | waiting => exact ⟨[.close], f.pause s, hclose hphase hexit, by simp, rfl, hexit⟩
  | delivering head =>
      -- the listener makes room for the head by taking all that is in the channel
      let taken : Feed := { f with channel := [] }
      let sent : Feed := { taken with phase := .waiting, channel := [head] }
      have hsend : Step s taken .send sent := .send hphase hexit hroom
      refine ⟨List.replicate f.channel.length .receive ++ [.send, .close], sent.pause s, ?_, by simp, rfl, hexit⟩
      rw [run?_append, run?_receive_all (exit?_eq_none_iff.mp hexit).2, Option.bind_some, run?, hsend.step?_eq,
        Option.bind_some]
      exact hclose rfl hexit
  | pausing => exact ⟨[], f, rfl, by simp, hphase, hexit⟩
  | finished exit => exact absurd ⟨exit, hphase⟩ hopen

end Feed

namespace Timeline

variable {s : Service} {room : Nat} {actions : List Action} {record : List (Nat × Event)} {c : Clocked}

/-- Whatever ends no pause takes no time. -/
theorem exists_append (h : Timeline s room actions record c) {more : List Action} {g : Feed}
    (hrun : c.feed.run? s more = some g) (hwake : .wake ∉ more) :
    ∃ told d, Timeline s room (actions ++ more) (record ++ told) d ∧ d.feed = g ∧
      (told.map Prod.snd).count .waited = 0 := by
  induction more generalizing actions record c with
  | nil =>
      cases hrun
      exact ⟨[], c, by simpa using h, rfl, rfl⟩
  | cons action rest ih =>
      obtain ⟨e, hstep, hrest⟩ := Option.bind_eq_some_iff.mp hrun
      have hother : action ≠ .wake := fun heq => hwake (heq ▸ List.mem_cons_self)
      have hline := h.act ⟨hstep, fun heq => absurd heq hother⟩
      obtain ⟨told, d, hd, hfeed, hcount⟩ := ih hline hrest fun hmem => hwake (List.mem_cons_of_mem _ hmem)
      rw [List.append_assoc, List.append_assoc] at hd
      refine ⟨_, d, hd, hfeed, ?_⟩
      rw [List.map_append, List.count_append, hcount, Nat.add_zero, Action.events, List.count_eq_zero]
      cases action <;> simp [Action.told] at hother ⊢

theorem capacity_eq (h : Timeline s room actions record c) : c.feed.capacity = room := by
  induction h with
  | here => rfl
  | pass _ _ ih => exact ih
  | act hallows _ ih => exact (Feed.Step.of_step? hallows.1).capacity_eq.trans ih

theorem not_isFinished (h : Timeline s room actions record c) (hexit : c.feed.exit? = none) : ¬c.feed.IsFinished := by
  rintro ⟨exit, hphase⟩
  obtain ⟨hcancelled, hlistening⟩ := Feed.exit?_eq_none_iff.mp hexit
  rcases (Feed.reason_of_finished h.run?_eq hphase).1 with ⟨-, hmem⟩ | ⟨-, hmem⟩
  · cases hcancelled.symm.trans ((Feed.cancelled_iff_mem h.run?_eq).mpr hmem)
  · cases hlistening.symm.trans ((Feed.listening_iff_mem h.run?_eq).mpr hmem)

/-- As long as a service has no reason to end, it comes to the end of one more pause. -/
theorem exists_pause (h : Timeline s room actions record c) (hroom : 0 < room) (hexit : c.feed.exit? = none) :
    ∃ more told d, Timeline s room (actions ++ more) (record ++ told) d ∧ d.feed.exit? = none ∧
      (told.map Prod.snd).count .waited = 1 := by
  have hcapacity : 0 < c.feed.capacity := h.capacity_eq ▸ hroom
  obtain ⟨more, g, hrun, hwake, hphase, hopen⟩ := Feed.exists_run?_pausing hexit (h.not_isFinished hexit) hcapacity
  obtain ⟨told, d, hline, rfl, hcount⟩ := h.exists_append hrun hwake
  let late : Clocked := { d with now := d.now + (d.pausedAt + s.reconnectDelay.toNat) }
  have hstep : Feed.Step s late.feed .wake { late.feed with phase := .starting } := .wake hphase hopen
  have hallows : late.Allows s .wake { late.feed with phase := .starting } :=
    ⟨hstep.step?_eq, fun _ => Nat.le_add_left _ _⟩
  have hdone := Timeline.act hallows (hline.pass (d.pausedAt + s.reconnectDelay.toNat))
  rw [Action.events_wake, List.append_assoc, List.append_assoc] at hdone
  refine ⟨_, _, _, hdone, hopen, ?_⟩
  rw [List.map_append, List.count_append, hcount]
  rfl

theorem exists_pauses (h : Timeline s room actions record c) (hroom : 0 < room) (hexit : c.feed.exit? = none)
    (n : Nat) :
    ∃ more told d, Timeline s room (actions ++ more) (record ++ told) d ∧ d.feed.exit? = none ∧
      (told.map Prod.snd).count .waited = n := by
  induction n with
  | zero => exact ⟨[], [], c, by simpa using h, hexit, rfl⟩
  | succ n ih =>
      obtain ⟨more, told, d, hline, hopen, hcount⟩ := ih
      obtain ⟨more', told', d', hline', hopen', hcount'⟩ := hline.exists_pause hroom hopen
      rw [List.append_assoc, List.append_assoc] at hline'
      refine ⟨_, _, d', hline', hopen', ?_⟩
      rw [List.map_append, List.count_append, hcount, hcount']

end Timeline

end ChainHead
