import ChainHead.Proofs.Service.Course
import ChainHead.Proofs.Service.Retelling

/-! Services that tell of the same in other words. A service that has the same target as another one and waits as long,
and of which each entry is that of the other one with a change, does the same step by step: whatever is possible for
one of them is possible for the other one, and nothing but the change of the log is between them. So it is in a world,
whatever the network brings, since no step looks at the log. -/

namespace ChainHead

/-- A service asks for the same as another one and waits as long, and each of its entries is a change of the other's. -/
structure Service.Echoes (t : Service) (change : LogEntry → LogEntry) (s : Service) : Prop where
  target_eq : Stream.target t.url = Stream.target s.url
  delay_eq : t.reconnectDelay = s.reconnectDelay
  connecting : ∀ state, t.connectingEntry state = change (s.connectingEntry state)
  unsubscribed : ∀ error, t.unsubscribedEntry error = change (s.unsubscribedEntry error)
  subscribed : t.subscribedEntry = change s.subscribedEntry
  received : ∀ head, t.receivedEntry head = change (s.receivedEntry head)
  skipped : ∀ error, t.skippedEntry error = change (s.skippedEntry error)
  failed : ∀ error, t.failedEntry error = change (s.failedEntry error)
  ended : ∀ state, t.endedEntry state = change (s.endedEntry state)
  exit : ∀ exit, t.exitEntry exit = change (s.exitEntry exit)

variable {change : LogEntry → LogEntry} {s t : Service}

theorem LogEntry.becomes_changed {entry told : LogEntry} (h : told = change entry) :
    entry.Becomes (List.map change) told := by
  intro log
  rw [h, List.map_append, List.map_singleton]

theorem Service.Echoes.retells (h : t.Echoes change s) : t.Retells (List.map change) s where
  target_eq := h.target_eq
  connecting state := LogEntry.becomes_changed (h.connecting state)
  unsubscribed error := LogEntry.becomes_changed (h.unsubscribed error)
  subscribed := LogEntry.becomes_changed h.subscribed
  received head := LogEntry.becomes_changed (h.received head)
  failed error := LogEntry.becomes_changed (h.failed error)
  ended state := LogEntry.becomes_changed (h.ended state)
  exit exit := LogEntry.becomes_changed (h.exit exit)

/-! ### Steps of the service -/

namespace Feed

/-- A service at work as if it had told everything with a change. -/
def changed (change : LogEntry → LogEntry) (f : Feed) : Feed := { f with log := f.log.map change }

/-- The same actions are possible for both services, and lead to the same but for the log. -/
theorem step?_changed (h : t.Echoes change s) (f : Feed) (action : Action) :
    (f.changed change).step? t action = (f.step? s action).map (changed change) :=
  step?_retold h.retells (fun error _ _ => LogEntry.becomes_changed (h.skipped error)) f

end Feed

/-! ### Steps in a world -/

namespace World

/-- The world in which another service has done what the service of this one did. -/
def echoed (t : Service) (change : LogEntry → LogEntry) (w : World) : World :=
  { w with service := t, feed := w.feed.changed change }

variable {w : World}

theorem act_echoed (h : t.Echoes change w.service) (action : Action) :
    (w.echoed t change).act action = (w.act action).map (echoed t change) := by
  show ((w.feed.changed change).step? t action).map _ = _
  rw [Feed.step?_changed h, act]
  cases w.feed.step? w.service action <;> rfl

theorem openSession_echoed (h : t.Echoes change w.service) :
    (w.echoed t change).openSession = w.openSession.echoed t change := by
  have htarget : Stream.target (w.echoed t change).service.url = Stream.target w.service.url := h.target_eq
  rw [openSession, openSession, htarget]
  cases Stream.target w.service.url <;> rfl

theorem nextOfSession_echoed (h : t.Echoes change w.service) :
    (w.echoed t change).nextOfSession = (w.nextOfSession.1.echoed t change, w.nextOfSession.2) := by
  have hsession : (w.echoed t change).session = w.session := rfl
  rw [nextOfSession, nextOfSession, hsession]
  rcases w.session with _ | ⟨_ | ⟨item, rest⟩, _ | _⟩
  case none => exact congrArg (·, none) (openSession_echoed h)
  all_goals rfl

theorem next_echoed (h : t.Echoes change w.service) :
    (w.echoed t change).next = (w.next.1.echoed t change, w.next.2) := by
  have hphase : (w.echoed t change).feed.phase = w.feed.phase := rfl
  have hexit : (w.echoed t change).feed.exit? = w.feed.exit? := rfl
  rw [next, next, hphase, hexit]
  cases w.feed.phase with
  | waiting =>
      cases w.feed.exit? with
      | none => exact nextOfSession_echoed h
      | some exit => rfl
  | starting => rfl
  | finished exit => rfl
  | delivering head => cases w.feed.exit? <;> rfl
  | pausing => cases w.feed.exit? <;> rfl

theorem service_next (w : World) : w.next.1.service = w.service := by
  have hsession : w.nextOfSession.1.service = w.service := by
    rw [nextOfSession]
    split
    · exact service_openSession w
    all_goals rfl
  rw [next]
  split
  case h_2 => exact hsession
  all_goals rfl

/-- Both services go on in the same way, or neither of them can. -/
theorem advance?_echoed (h : t.Echoes change w.service) :
    (w.echoed t change).advance? = w.advance?.map (echoed t change) := by
  have hnext := next_echoed h
  have hservice : t.Echoes change w.next.1.service := (service_next w).symm ▸ h
  have hsession : (w.echoed t change).session = w.session := rfl
  rw [advance?, hnext, hsession, advance?]
  generalize w.next = next at hservice
  obtain ⟨v, action⟩ := next
  cases action with
  | some action => exact act_echoed hservice action
  | none =>
      have hopened : (v.echoed t change).session = v.session := rfl
      dsimp only
      rw [hopened]
      split <;> rfl

end World

end ChainHead
