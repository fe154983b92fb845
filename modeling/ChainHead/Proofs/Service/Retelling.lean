import ChainHead.Proofs.Service.Steps

/-! Logs that are told in another way. No step looks at the log. So a service that asks for the same as another one, and
adds to the retold log what the entries of the other one become in it, goes on as the other one does, step by step, and
nothing but the log is between them. What the entries for skipped events become matters only where one is skipped. -/

namespace ChainHead

variable {tell : List LogEntry → List LogEntry} {s t : Service}

/-- What an entry becomes at the end of a log that is retold, whatever stands before it. -/
def LogEntry.Becomes (tell : List LogEntry → List LogEntry) (entry told : LogEntry) : Prop :=
  ∀ log, tell (log ++ [entry]) = tell log ++ [told]

/-- A service asks for the same as another one, and each of its entries is what the other's becomes. Nothing is said of
what is skipped. -/
structure Service.Retells (t : Service) (tell : List LogEntry → List LogEntry) (s : Service) : Prop where
  target_eq : Stream.target t.url = Stream.target s.url
  connecting : ∀ state, (s.connectingEntry state).Becomes tell (t.connectingEntry state)
  unsubscribed : ∀ error, (s.unsubscribedEntry error).Becomes tell (t.unsubscribedEntry error)
  subscribed : s.subscribedEntry.Becomes tell t.subscribedEntry
  received : ∀ head, (s.receivedEntry head).Becomes tell (t.receivedEntry head)
  failed : ∀ error, (s.failedEntry error).Becomes tell (t.failedEntry error)
  ended : ∀ state, (s.endedEntry state).Becomes tell (t.endedEntry state)
  exit : ∀ exit, (s.exitEntry exit).Becomes tell (t.exitEntry exit)

namespace Feed

/-- A service at work as if its log had been told in another way. -/
def retold (tell : List LogEntry → List LogEntry) (f : Feed) : Feed := { f with log := tell f.log }

theorem retold_note {entry told : LogEntry} (h : entry.Becomes tell told) (f : Feed) :
    (f.note [entry]).retold tell = (f.retold tell).note [told] :=
  congrArg (fun log => { f with log := log }) (h f.log)

theorem retold_pause (h : t.Retells tell s) (f : Feed) : (f.pause s).retold tell = (f.retold tell).pause t :=
  congrArg (fun e : Feed => { e with phase := .pausing, state := .connecting }) (retold_note (h.ended f.state) f)

theorem retold_finish (h : t.Retells tell s) (exit : Exit) (f : Feed) :
    (f.finish s exit).retold tell = (f.retold tell).finish t exit :=
  congrArg (fun e : Feed => { e with phase := .finished exit }) (retold_note (h.exit exit) f)

theorem retold_connect (h : t.Retells tell s) (f : Feed) :
    (f.connect s).retold tell = (f.retold tell).connect t := by
  have hnote := retold_note (h.connecting f.state) f
  rw [connect, connect, h.target_eq]
  cases Stream.target s.url with
  | ok target => exact congrArg (fun e : Feed => { e with phase := .waiting }) hnote
  | error fault =>
      dsimp only
      rw [retold_pause h, retold_note (h.unsubscribed fault), hnote]
      rfl

theorem retold_take (h : t.Retells tell s) {item : StreamItem}
    (hskipped : ∀ error, item = .failed error → error.isSkippable = true →
      (s.skippedEntry error).Becomes tell (t.skippedEntry error)) (f : Feed) :
    (f.take s item).retold tell = (f.retold tell).take t item := by
  cases item with
  | connected => exact congrArg (fun e : Feed => { e with state := .streaming }) (retold_note h.subscribed f)
  | head event =>
      exact congrArg (fun e : Feed => { e with phase := .delivering event }) (retold_note (h.received event) f)
  | failed error =>
      rw [take, take]
      split_ifs with hskippable
      · exact retold_note (hskipped error rfl hskippable) f
      · rw [retold_pause h, retold_note (h.failed error)]

/-- The same actions are possible for both services, and lead to the same but for the log. -/
theorem step?_retold (h : t.Retells tell s) {action : Action}
    (hskipped : ∀ error, action = .yield (.failed error) → error.isSkippable = true →
      (s.skippedEntry error).Becomes tell (t.skippedEntry error)) (f : Feed) :
    (f.retold tell).step? t action = (f.step? s action).map (retold tell) := by
  have hphase : (f.retold tell).phase = f.phase := rfl
  have hexit : (f.retold tell).exit? = f.exit? := rfl
  cases action with
  | cancel => rfl
  | dropReceiver => rfl
  | receive =>
      have hchannel : (f.retold tell).channel = f.channel := rfl
      have hlistening : (f.retold tell).listening = f.listening := rfl
      rw [step?, step?, hchannel, hlistening]
      cases f.channel with
      | nil => rfl
      | cons head rest => cases f.listening <;> rfl
  | connect =>
      rw [step?, step?, hphase, ← retold_connect h]
      split <;> rfl
  | yield item =>
      rw [step?, step?, hphase, hexit, ← retold_take h fun error hitem => hskipped error (congrArg Action.yield hitem)]
      split <;> rfl
  | close =>
      rw [step?, step?, hphase, hexit, ← retold_pause h]
      split <;> rfl
  | send =>
      have hchannel : (f.retold tell).channel = f.channel := rfl
      have hcapacity : (f.retold tell).capacity = f.capacity := rfl
      rw [step?, step?, hphase, hexit, hchannel, hcapacity]
      cases f.phase with
      | delivering head => dsimp only; split <;> rfl
      | _ => rfl
  | wake =>
      rw [step?, step?, hphase, hexit]
      split <;> rfl
  | stop =>
      have hwaiting : (f.retold tell).isWaiting = f.isWaiting := rfl
      rw [step?, step?, hexit, hwaiting]
      split
      · cases f.exit? with
        | none => rfl
        | some exit => exact congrArg some (retold_finish h exit f).symm
      · rfl

end Feed

end ChainHead
