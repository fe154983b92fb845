import ChainHead.Proofs.Service.Asking
import ChainHead.Proofs.Service.Timeline

/-! The attempts of a service. What is told of a run past time is one attempt after the other, and between two attempts
the end of the former and one whole pause; so a history of attempts says all of it. Where the service stands in its
present attempt says how each action carries the history on. -/

namespace ChainHead

/-- An attempt: when it began, what was yielded in it and when, and when it ended, if it did. -/
structure Attempt where
  began : Nat
  items : List (Nat × StreamItem) := []
  ended : Option Nat := none

namespace Attempt

def yielded (a : Attempt) : List StreamItem := a.items.map Prod.snd

/-- An attempt is one of streaming as soon as it was connected. -/
def state (a : Attempt) : StreamState := if .connected ∈ a.yielded then .streaming else .connecting

/-- What is told of an attempt. -/
def record (s : Service) (a : Attempt) : List (Nat × Event) :=
  (a.began, .logged (s.connectingEntry .connecting)) ::
    (a.items.map fun (time, item) => (time, .yielded item)) ++
      a.ended.toList.map fun time => (time, .logged (s.endedEntry a.state))

def take (a : Attempt) (time : Nat) (item : StreamItem) : Attempt := { a with items := a.items ++ [(time, item)] }

def finish (a : Attempt) (time : Nat) : Attempt := { a with ended := some time }

variable {s : Service} {a : Attempt}

theorem yielded_take (time : Nat) (item : StreamItem) : (a.take time item).yielded = a.yielded ++ [item] := by
  rw [yielded, take, List.map_append]
  rfl

theorem state_take_connected (time : Nat) : (a.take time .connected).state = .streaming := by
  rw [state, yielded_take, if_pos (by simp)]

theorem state_take {item : StreamItem} (hitem : item ≠ .connected) (time : Nat) :
    (a.take time item).state = a.state := by
  rw [state, state, yielded_take]
  simp [Ne.symm hitem]

theorem record_take (hended : a.ended = none) (time : Nat) (item : StreamItem) :
    (a.take time item).record s = a.record s ++ [(time, .yielded item)] := by
  simp [record, take, hended]

theorem record_finish (hended : a.ended = none) (time : Nat) :
    (a.finish time).record s = a.record s ++ [(time, .logged (s.endedEntry a.state))] := by
  simp only [record, finish, hended, Option.toList_some, Option.toList_none, List.map_nil, List.map_cons,
    List.append_nil]
  rfl

/-- An attempt that has brought a head was connected before. -/
theorem state_of_connectsFirst (h : ConnectsFirst a.yielded) {head : HeadEvent}
    (hlast : a.yielded.getLast? = some (.head head)) : a.state = .streaming := by
  obtain ⟨front, hfront⟩ := List.getLast?_eq_some_iff.mp hlast
  have hmem := h.before_head front head [] hfront
  rw [state, hfront, if_pos (List.mem_append_left _ hmem)]

end Attempt

/-- Attempts one after the other: those that are past, each with the time at which its pause was over, and the
present one, if it has begun. -/
structure History where
  past : List (Attempt × Nat) := []
  present : Option Attempt := none

namespace History

def attempts (h : History) : List Attempt := h.past.map Prod.fst ++ h.present.toList

/-- What is told of attempts: of each that is past, and then that it was waited for, and of the present one. -/
def record (s : Service) (h : History) : List (Nat × Event) :=
  h.past.flatMap (fun a => a.1.record s ++ [(a.2, .waited)]) ++ h.present.toList.flatMap (Attempt.record s)

end History

/-- Where a service stands in its present attempt. -/
inductive Standing (c : Clocked) : Option Attempt → Prop
  | starting (hphase : c.feed.phase = .starting) (hstate : c.feed.state = .connecting) : Standing c none
  | waiting {a : Attempt} (hphase : c.feed.phase = .waiting) (hended : a.ended = none)
      (hstate : c.feed.state = a.state) : Standing c (some a)
  | delivering {a : Attempt} {head : HeadEvent} (hphase : c.feed.phase = .delivering head) (hended : a.ended = none)
      (hstate : c.feed.state = a.state) (hlast : a.yielded.getLast? = some (.head head)) : Standing c (some a)
  | pausing {a : Attempt} (hphase : c.feed.phase = .pausing) (hended : a.ended = some c.pausedAt)
      (hstate : c.feed.state = .connecting) : Standing c (some a)
  | finished {a : Attempt} {exit : Exit} (hphase : c.feed.phase = .finished exit) : Standing c (some a)

/-- What a history tells of a run. -/
structure History.Tells (s : Service) (actions : List Action) (record : List (Nat × Event)) (c : Clocked)
    (h : History) : Prop where
  record_eq : record = h.record s
  waited : ∀ a ∈ h.past, ∃ ended, a.1.ended = some ended ∧ ended + s.reconnectDelay.toNat ≤ a.2
  sessions_eq : sessionsOf actions = h.attempts.map Attempt.yielded
  standing : Standing c h.present

/-! ### One action -/

namespace Standing

variable {c : Clocked} {g : Feed} {present : Option Attempt}

/-- What neither changes the phase nor the state changes nothing of where the service stands. -/
theorem goTo (h : Standing c present) (hphase : g.phase = c.feed.phase) (hstate : g.state = c.feed.state) :
    Standing (c.goTo g) present := by
  cases h with
  | starting hp hs => exact .starting (hphase.trans hp) (hstate.trans hs)
  | waiting hp hended hs => exact .waiting (hphase.trans hp) hended (hstate.trans hs)
  | delivering hp hended hs hlast => exact .delivering (hphase.trans hp) hended (hstate.trans hs) hlast
  | pausing hp hended hs =>
      refine .pausing (hphase.trans hp) ?_ (hstate.trans hs)
      rw [hended, Clocked.goTo, if_pos hp]
  | finished hp => exact .finished (hphase.trans hp)

theorem pass (h : Standing c present) (time : Nat) : Standing { c with now := c.now + time } present := by
  cases h with
  | starting hphase hstate => exact .starting hphase hstate
  | waiting hphase hended hstate => exact .waiting hphase hended hstate
  | delivering hphase hended hstate hlast => exact .delivering hphase hended hstate hlast
  | pausing hphase hended hstate => exact .pausing hphase hended hstate
  | finished hphase => exact .finished hphase

theorem of_starting (h : Standing c present) (hphase : c.feed.phase = .starting) :
    present = none ∧ c.feed.state = .connecting := by
  cases h with
  | starting _ hstate => exact ⟨rfl, hstate⟩
  | _ hp => cases hphase.symm.trans hp

theorem of_waiting (h : Standing c present) (hphase : c.feed.phase = .waiting) :
    ∃ a, present = some a ∧ a.ended = none ∧ c.feed.state = a.state := by
  cases h with
  | waiting _ hended hstate => exact ⟨_, rfl, hended, hstate⟩
  | _ hp => cases hphase.symm.trans hp

theorem of_delivering (h : Standing c present) {head : HeadEvent} (hphase : c.feed.phase = .delivering head) :
    ∃ a, present = some a ∧ a.ended = none ∧ c.feed.state = a.state ∧ a.yielded.getLast? = some (.head head) := by
  cases h with
  | delivering hp hended hstate hlast =>
      cases hphase.symm.trans hp
      exact ⟨_, rfl, hended, hstate, hlast⟩
  | _ hp => cases hphase.symm.trans hp

theorem of_pausing (h : Standing c present) (hphase : c.feed.phase = .pausing) :
    ∃ a, present = some a ∧ a.ended = some c.pausedAt ∧ c.feed.state = .connecting := by
  cases h with
  | pausing _ hended hstate => exact ⟨_, rfl, hended, hstate⟩
  | _ hp => cases hphase.symm.trans hp

theorem eq_none_iff (h : Standing c present) : present = none ↔ c.feed.phase = .starting := by
  cases h with
  | starting hphase => simp [hphase]
  | waiting hphase => simp [hphase]
  | delivering hphase => simp [hphase]
  | pausing hphase => simp [hphase]
  | finished hphase => simp [hphase]

theorem exists_of_isWaiting (h : Standing c present) (hwaiting : c.feed.isWaiting = true) : ∃ a, present = some a := by
  cases h with
  | starting hphase => simp [Feed.isWaiting, hphase] at hwaiting
  | _ => exact ⟨_, rfl⟩

end Standing

namespace History.Tells

variable {s : Service} {actions : List Action} {record : List (Nat × Event)} {c : Clocked} {history : History}
  {action : Action} {g : Feed} {a next : Attempt}

theorem quiet (h : history.Tells s actions record c) (hitem : action.item? = none)
    (hconnect : action.isConnect = false) (hevents : action.events c.feed g = [])
    (hstanding : Standing (c.goTo g) history.present) :
    history.Tells s (actions ++ [action]) (record ++ (action.events c.feed g).map (c.now, ·)) (c.goTo g) where
  record_eq := by
    rw [hevents, List.map_nil, List.append_nil]
    exact h.record_eq
  waited := h.waited
  sessions_eq := (sessionsOf_of_item?_eq_none hitem hconnect actions).trans h.sessions_eq
  standing := hstanding

/-- The present attempt goes on, or ends. -/
theorem update (h : history.Tells s actions record c) (hpresent : history.present = some a)
    (hconnect : action.isConnect = false) (hyielded : next.yielded = a.yielded ++ action.item?.toList)
    (hrecord : next.record s = a.record s ++ (action.events c.feed g).map (c.now, ·))
    (hstanding : Standing (c.goTo g) (some next)) :
    { history with present := some next }.Tells s (actions ++ [action])
      (record ++ (action.events c.feed g).map (c.now, ·)) (c.goTo g) where
  record_eq := by
    rw [h.record_eq, History.record, History.record, hpresent]
    simp [hrecord]
  waited := h.waited
  sessions_eq := by
    have hsessions := h.sessions_eq
    rw [attempts, hpresent, List.map_append] at hsessions
    rw [sessionsOf_snoc hsessions hconnect, attempts, List.map_append, ← hyielded]
    rfl
  standing := hstanding

/-- An attempt begins. -/
theorem start (h : history.Tells s actions record c) (hpresent : history.present = none)
    (hyielded : next.yielded = [])
    (hrecord : next.record s = (Action.connect.events c.feed g).map (c.now, ·))
    (hstanding : Standing (c.goTo g) (some next)) :
    { history with present := some next }.Tells s (actions ++ [Action.connect])
      (record ++ (Action.connect.events c.feed g).map (c.now, ·)) (c.goTo g) where
  record_eq := by
    rw [h.record_eq, History.record, History.record, hpresent]
    simp [hrecord]
  waited := h.waited
  sessions_eq := by
    have hsessions := h.sessions_eq
    rw [attempts, hpresent, Option.toList_none, List.append_nil] at hsessions
    rw [sessionsOf_connect, hsessions, attempts, List.map_append, ← hyielded]
    rfl
  standing := hstanding

theorem connect (h : history.Tells s actions record c) (hphase : c.feed.phase = .starting) :
    ∃ after : History, after.Tells s (actions ++ [.connect])
      (record ++ (Action.connect.events c.feed (c.feed.connect s)).map (c.now, ·)) (c.goTo (c.feed.connect s)) := by
  obtain ⟨hpresent, hstate⟩ := h.standing.of_starting hphase
  let begun : Attempt := { began := c.now }
  cases htarget : Stream.target s.url with
  | ok target =>
      have hconnect := Feed.connect_of_ok (f := c.feed) htarget
      rw [hstate] at hconnect
      rw [hconnect]
      refine ⟨{ history with present := some begun }, h.start hpresent rfl ?_ ?_⟩
      · rw [Action.events_eq rfl]
        rfl
      · exact .waiting rfl rfl hstate
  | error fault =>
      have hconnect := Feed.connect_of_error (f := c.feed) htarget
      rw [hstate] at hconnect
      rw [hconnect]
      refine ⟨{ history with present := some (begun.finish c.now) }, h.start hpresent rfl ?_ ?_⟩
      · have hlog := List.append_assoc c.feed.log
          [s.connectingEntry .connecting, s.unsubscribedEntry fault] [s.endedEntry c.feed.state]
        rw [Action.events_eq hlog, hstate]
        rfl
      · refine .pausing rfl ?_ rfl
        rw [Clocked.goTo, if_neg (by simp [hphase])]
        rfl

theorem pausedAt_goTo (hphase : c.feed.phase ≠ .pausing) : (c.goTo g).pausedAt = c.now := by
  rw [Clocked.goTo, if_neg hphase]

theorem yield (h : history.Tells s actions record c) (hphase : c.feed.phase = .waiting) (item : StreamItem) :
    ∃ after : History, after.Tells s (actions ++ [.yield item])
      (record ++ ((Action.yield item).events c.feed (c.feed.take s item)).map (c.now, ·))
      (c.goTo (c.feed.take s item)) := by
  obtain ⟨a, hpresent, hended, hstate⟩ := h.standing.of_waiting hphase
  have hyielded := a.yielded_take c.now item
  have hrecord := Attempt.record_take (s := s) hended c.now item
  cases item with
  | connected =>
      refine ⟨{ history with present := some (a.take c.now .connected) }, h.update hpresent rfl hyielded ?_ ?_⟩
      · rw [hrecord, Action.events_eq rfl]
        rfl
      · exact .waiting hphase hended (a.state_take_connected c.now).symm
  | head head =>
      refine ⟨{ history with present := some (a.take c.now (.head head)) }, h.update hpresent rfl hyielded ?_ ?_⟩
      · rw [hrecord, Action.events_eq rfl]
        rfl
      · refine .delivering rfl hended (hstate.trans (a.state_take (by simp) c.now).symm) ?_
        rw [hyielded, List.getLast?_concat]
  | failed error =>
      have hitem : StreamItem.failed error ≠ .connected := nofun
      have hsame := a.state_take hitem c.now
      rw [Feed.take]
      split_ifs with hskippable
      · refine ⟨{ history with present := some (a.take c.now (.failed error)) }, h.update hpresent rfl hyielded ?_ ?_⟩
        · rw [hrecord, Action.events_eq rfl]
          rfl
        · exact .waiting hphase hended (hstate.trans hsame.symm)
      · refine ⟨{ history with present := some ((a.take c.now (.failed error)).finish c.now) },
          h.update hpresent rfl hyielded ?_ ?_⟩
        · have hlog := List.append_assoc c.feed.log [s.failedEntry error] [s.endedEntry c.feed.state]
          have hlast := Attempt.record_finish (s := s) (a := a.take c.now (.failed error)) hended c.now
          rw [hlast, hrecord, hsame, Action.events_eq hlog, hstate, List.append_assoc]
          rfl
        · refine .pausing rfl ?_ rfl
          rw [pausedAt_goTo (by simp [hphase])]
          rfl

theorem close (h : history.Tells s actions record c) (hphase : c.feed.phase = .waiting) :
    ∃ after : History, after.Tells s (actions ++ [.close])
      (record ++ (Action.close.events c.feed (c.feed.pause s)).map (c.now, ·)) (c.goTo (c.feed.pause s)) := by
  obtain ⟨a, hpresent, hended, hstate⟩ := h.standing.of_waiting hphase
  refine ⟨{ history with present := some (a.finish c.now) },
    h.update hpresent rfl (List.append_nil a.yielded).symm ?_ ?_⟩
  · rw [Attempt.record_finish hended, Action.events_eq rfl, hstate]
    rfl
  · refine .pausing rfl ?_ rfl
    rw [pausedAt_goTo (by simp [hphase])]
    rfl

/-- The pause behind an attempt is over. -/
theorem wake (h : history.Tells s actions record c) (hphase : c.feed.phase = .pausing)
    (htime : c.pausedAt + s.reconnectDelay.toNat ≤ c.now) :
    ∃ after : History, after.Tells s (actions ++ [.wake])
      (record ++ (Action.wake.events c.feed { c.feed with phase := .starting }).map (c.now, ·))
      (c.goTo { c.feed with phase := .starting }) := by
  obtain ⟨a, hpresent, hended, hstate⟩ := h.standing.of_pausing hphase
  refine ⟨⟨history.past ++ [(a, c.now)], none⟩, ?_, ?_, ?_, .starting rfl hstate⟩
  · rw [h.record_eq, Action.events_wake, History.record, History.record, hpresent]
    simp
  · intro b hb
    rcases List.mem_append.mp hb with hb | hb
    · exact h.waited b hb
    · rw [List.mem_singleton.mp hb]
      exact ⟨c.pausedAt, hended, htime⟩
  · have hsessions := h.sessions_eq
    rw [attempts, hpresent] at hsessions
    rw [sessionsOf_of_item?_eq_none rfl rfl, hsessions, attempts]
    simp

theorem act (h : history.Tells s actions record c) (hallows : c.Allows s action g) :
    ∃ after : History,
      after.Tells s (actions ++ [action]) (record ++ (action.events c.feed g).map (c.now, ·)) (c.goTo g) := by
  obtain ⟨hstep, htime⟩ := hallows
  have hnothing := (List.append_nil c.feed.log).symm
  cases Feed.Step.of_step? hstep with
  | cancel => exact ⟨history, h.quiet rfl rfl (Action.events_eq hnothing _) (h.standing.goTo rfl rfl)⟩
  | dropReceiver => exact ⟨history, h.quiet rfl rfl (Action.events_eq hnothing _) (h.standing.goTo rfl rfl)⟩
  | receive => exact ⟨history, h.quiet rfl rfl (Action.events_eq hnothing _) (h.standing.goTo rfl rfl)⟩
  | connect hphase => exact h.connect hphase
  | yield item hphase => exact h.yield hphase item
  | close hphase => exact h.close hphase
  | send hphase =>
      obtain ⟨a, hpresent, hended, hstate, -⟩ := h.standing.of_delivering hphase
      refine ⟨history, h.quiet rfl rfl (Action.events_eq hnothing _) ?_⟩
      rw [hpresent]
      exact .waiting rfl hended hstate
  | wake hphase => exact h.wake hphase (htime rfl)
  | @stop exit hwaiting =>
      obtain ⟨a, hpresent⟩ := h.standing.exists_of_isWaiting hwaiting
      have hevents : Action.stop.events c.feed (c.feed.finish s exit) = [] := by
        rw [Action.events_eq rfl]
        cases exit <;> rfl
      refine ⟨history, h.quiet rfl rfl hevents ?_⟩
      rw [hpresent]
      exact .finished rfl

end History.Tells

/-- What is told of a run past time is told by a history. -/
theorem Timeline.exists_history {s : Service} {room : Nat} {actions : List Action} {record : List (Nat × Event)}
    {c : Clocked} (h : Timeline s room actions record c) : ∃ history : History, history.Tells s actions record c := by
  induction h with
  | here => exact ⟨{}, rfl, by simp, rfl, .starting rfl rfl⟩
  | pass time _ ih =>
      obtain ⟨history, hrecord, hwaited, hsessions, hstanding⟩ := ih
      exact ⟨history, hrecord, hwaited, hsessions, hstanding.pass time⟩
  | act hallows _ ih =>
      obtain ⟨history, hhistory⟩ := ih
      exact hhistory.act hallows

/-- Whatever its sessions do, what is told of a run past time is one attempt after the other. Each begins in the
connecting state. Each but the present one has ended with one entry, which calls it streaming exactly if it was
connected, and behind it stands one pause of at least the delay. A service that is about to begin an attempt can do
nothing else, one that pauses can begin anew as soon as the delay has passed, and nothing else, and as long as it has no
reason to end, any number of further pauses can come. A head is handed on while streaming, since sessions connect before
they bring heads; and in every world each attempt asks first for the target of the service's own base URL. -/
theorem attempts_in_turn (s : Service) (room : Nat) (actions : List Action) (record : List (Nat × Event))
    (c : Clocked) (h : Timeline s room actions record c) :
    ∃ history : History,
      (record = history.record s ∧ (record.map Prod.fst).Pairwise (· ≤ ·) ∧
        c.feed.log.filter isTurn = record.filterMap fun told => told.2.logged?) ∧
      (∀ a ∈ history.past, ∃ ended, a.1.ended = some ended ∧ ended + s.reconnectDelay.toNat ≤ a.2) ∧
      sessionsOf actions = history.attempts.map Attempt.yielded ∧
      (history.present = none ↔ c.feed.phase = .starting) ∧
      (c.feed.phase ≠ .starting → history.attempts.length = history.past.length + 1) ∧
      (c.feed.phase = .starting → c.feed.state = .connecting ∧ ∀ action g, action.isOwn = true →
        (c.Allows s action g ↔ action = .connect ∧ g = c.feed.connect s)) ∧
      (c.feed.phase = .pausing → c.feed.exit? = none → ∃ a ended, history.present = some a ∧ a.ended = some ended ∧
        ∀ action g, action.isOwn = true →
          (c.Allows s action g ↔
            action = .wake ∧ g = { c.feed with phase := .starting } ∧ ended + s.reconnectDelay.toNat ≤ c.now)) ∧
      (0 < room → c.feed.exit? = none → ∀ n, ∃ more told d, Timeline s room (actions ++ more) (record ++ told) d ∧
        d.feed.exit? = none ∧ (told.map Prod.snd).count .waited = n) ∧
      (∀ head, c.feed.phase = .delivering head → ∃ a, history.present = some a ∧
        (ConnectsFirst a.yielded → c.feed.state = .streaming)) ∧
      ∀ start w, start.service = s → start.feed = Feed.fresh room → start.requests = [] →
        World.Course start actions w →
          ∃ asked : List Asked, asked.map Asked.yielded = history.attempts.map Attempt.yielded ∧
            w.requests = asked.flatMap Asked.requests ∧
            ∀ a ∈ asked, a.IsOf s ∧ ConnectsFirst a.yielded ∧
              ∀ first ∈ a.requests.head?, Stream.target s.url = .ok first := by
  obtain ⟨history, hhistory⟩ := h.exists_history
  have hstanding := hhistory.standing
  refine ⟨history, ⟨hhistory.record_eq, h.sorted.1, h.log_eq⟩, hhistory.waited, hhistory.sessions_eq,
    hstanding.eq_none_iff, fun hphase => ?_, fun hphase => ⟨(hstanding.of_starting hphase).2, fun action g hown => ?_⟩,
    fun hphase hexit => ?_, fun hroom hexit n => h.exists_pauses hroom hexit n, fun head hphase => ?_,
    fun start w hservice hfeed hrequests hcourse => ?_⟩
  · obtain ⟨a, hpresent⟩ := Option.ne_none_iff_exists'.mp (mt hstanding.eq_none_iff.mp hphase)
    rw [History.attempts, hpresent, List.length_append, List.length_map]
    rfl
  · exact Clocked.allows_iff_of_starting hphase hown
  · obtain ⟨a, hpresent, hended, -⟩ := hstanding.of_pausing hphase
    exact ⟨a, c.pausedAt, hpresent, hended, fun action g hown => Clocked.allows_iff_of_pausing hphase hexit hown⟩
  · obtain ⟨a, hpresent, -, hstate, hlast⟩ := hstanding.of_delivering hphase
    exact ⟨a, hpresent, fun hconnects => hstate.trans (Attempt.state_of_connectsFirst hconnects hlast)⟩
  · obtain ⟨asked, hasked⟩ := hcourse.hasAsked hservice hfeed hrequests
    refine ⟨asked, hasked.sessions_eq.symm.trans hhistory.sessions_eq, hasked.requests_eq, fun a ha => ?_⟩
    have ha := hasked.isOf a ha
    exact ⟨ha, ha.connectsFirst, ha.first_request⟩

/-- An attempt that is connected and comes to its end, one that is closed at once, and the beginning of a third one. -/
def Action.threeAttempts : List Action :=
  [.connect, .yield .connected, .yield (.failed (.stream .endOfBody)), .wake, .connect, .close, .wake, .connect]

theorem attempts_in_turn_threeAttempts :
    ∃ record c, Timeline .atLocalhost 1 Action.threeAttempts record c ∧
      ∃ history : History, record = history.record .atLocalhost ∧ history.past.length = 2 ∧
        history.attempts.map Attempt.yielded = [[.connected, .failed (.stream .endOfBody)], [], []] := by
  have hpossible : ((Feed.fresh 1).run? .atLocalhost Action.threeAttempts).any (·.phase = .waiting) = true := by
    decide +kernel
  obtain ⟨f, hrun, hphase⟩ := (Option.any_eq_true _ _).mp hpossible
  obtain ⟨record, c, hline, rfl⟩ := Timeline.exists_of_run? hrun
  obtain ⟨history, ⟨hrecord, -⟩, -, hsessions, -, hlength, -⟩ :=
    attempts_in_turn .atLocalhost 1 Action.threeAttempts record c hline
  have hyielded : history.attempts.map Attempt.yielded = [[.connected, .failed (.stream .endOfBody)], [], []] :=
    hsessions.symm
  refine ⟨record, c, hline, history, hrecord, ?_, hyielded⟩
  have hattempts := hlength (by simp [of_decide_eq_true hphase])
  have hthree := congrArg List.length hyielded
  rw [List.length_map, hattempts] at hthree
  exact Nat.succ.inj hthree

end ChainHead
