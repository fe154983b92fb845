import ChainHead.Log
import ChainHead.Stream.Session

/-! The service that keeps head events coming. It follows one session after the other, with a pause between
them, and hands each head on through a channel of bounded room. It ends only when it is told to, or when
nobody listens any more; wherever it waits it takes notice of both, of the former first.

`Feed.step?` says what each action does to the service, and when it is possible. Actions come from outside
(the listener and whoever ends the service), from the session, and from the service itself. -/

namespace ChainHead

inductive StreamState where
  | connecting
  | streaming
deriving DecidableEq, Repr

def StreamState.text : StreamState → String
  | .connecting => "connecting"
  | .streaming => "streaming"

/-- A service for the node at a URL. The pause is in milliseconds. -/
structure Service where
  name : String
  url : Url
  reconnectDelay : UInt64 := Settings.defaultReconnectDelay

inductive Exit where
  | shutdown
  | consumerGone
deriving DecidableEq, Repr

/-- What a service is doing: beginning a session, waiting for what it yields, holding a head until there is
room for it, pausing, or nothing any more. -/
inductive Phase where
  | starting
  | waiting
  | delivering (head : HeadEvent)
  | pausing
  | finished (exit : Exit)
deriving DecidableEq

structure Feed where
  phase : Phase := .starting
  state : StreamState := .connecting
  cancelled : Bool := false
  listening : Bool := true
  capacity : Nat
  channel : List HeadEvent := []
  log : List LogEntry := []
deriving DecidableEq

def roomLimit : Nat := 2305843009213693951

/-- A service that is about to begin, if there can be a channel of the given room. -/
def Feed.open? (room : Nat) : Option Feed :=
  if 0 < room ∧ room ≤ roomLimit then some { capacity := room } else none

inductive Action where
  | cancel
  | dropReceiver
  | receive
  | connect
  | yield (item : StreamItem)
  | close
  | send
  | wake
  | stop
deriving DecidableEq

namespace Service

/-- The service for a node, with the default pause. -/
def ofUrl (name : String) (url : Url) : Service := { name, url }

def withReconnectDelay (s : Service) (delay : UInt64) : Service := { s with reconnectDelay := delay }

def nameField (s : Service) : String × String := ("name", s.name)

def connectingEntry (s : Service) (state : StreamState) : LogEntry :=
  { level := .info
    message := "Connecting to head event stream"
    fields := [s.nameField, ("url", s.url.text), ("state", state.text)] }

def subscribedEntry (s : Service) : LogEntry :=
  { level := .info
    message := "Subscribed to head events"
    fields := [s.nameField, ("state", StreamState.streaming.text)] }

def receivedEntry (s : Service) (head : HeadEvent) : LogEntry :=
  { level := .debug
    message := "Received head event"
    fields := [s.nameField, ("slot", Numeral.text head.slot.toNat), ("block", head.block)] }

def skippedEntry (s : Service) (error : Error) : LogEntry :=
  { level := .error
    message := "Malformed head event, skipping"
    fields := [s.nameField, ("error", error.message)] }

def failedEntry (s : Service) (error : Error) : LogEntry :=
  { level := .warn
    message := "Head event stream error"
    fields := [s.nameField, ("error", error.message)] }

def unsubscribedEntry (s : Service) (error : Error) : LogEntry :=
  { level := .error
    message := "Failed to subscribe to head events"
    fields := [s.nameField, ("url", s.url.text), ("error", error.message)] }

def endedEntry (s : Service) (state : StreamState) : LogEntry :=
  { level := .warn
    message := "Head event stream ended, reconnecting"
    fields :=
      [s.nameField, ("previous_state", state.text), ("delay_ms", Numeral.text s.reconnectDelay.toNat)] }

def exitEntry (s : Service) : Exit → LogEntry
  | .shutdown =>
    { level := .info
      message := "HeadEventService received shutdown signal"
      fields := [s.nameField] }
  | .consumerGone =>
    { level := .warn
      message := "Head event consumer dropped, stopping subscription"
      fields := [s.nameField] }

end Service

namespace Feed

def note (f : Feed) (entries : List LogEntry) : Feed :=
  { f with log := f.log ++ entries }

/-- Why the service has to end as soon as it waits, if it has to. -/
def exit? (f : Feed) : Option Exit :=
  if f.cancelled then some .shutdown
  else if f.listening then none
  else some .consumerGone

def isWaiting (f : Feed) : Bool :=
  match f.phase with
  | .waiting | .delivering _ | .pausing => true
  | .starting | .finished _ => false

def pause (s : Service) (f : Feed) : Feed :=
  { f.note [s.endedEntry f.state] with phase := .pausing, state := .connecting }

def connect (s : Service) (f : Feed) : Feed :=
  let f := f.note [s.connectingEntry f.state]
  match Stream.target s.url with
  | .ok _ => { f with phase := .waiting }
  | .error error => (f.note [s.unsubscribedEntry error]).pause s

def take (s : Service) (f : Feed) : StreamItem → Feed
  | .connected => { f.note [s.subscribedEntry] with state := .streaming }
  | .head head => { f.note [s.receivedEntry head] with phase := .delivering head }
  | .failed error =>
    if error.isSkippable then f.note [s.skippedEntry error]
    else (f.note [s.failedEntry error]).pause s

def finish (s : Service) (f : Feed) (exit : Exit) : Feed :=
  { f.note [s.exitEntry exit] with phase := .finished exit }

/-- What an action does, if it is possible. -/
def step? (s : Service) (f : Feed) : Action → Option Feed
  | .cancel => some { f with cancelled := true }
  | .dropReceiver => some { f with listening := false }
  | .receive =>
    match f.channel with
    | [] => none
    | _ :: rest => if f.listening then some { f with channel := rest } else none
  | .connect => if f.phase = .starting then some (f.connect s) else none
  | .yield item => if f.phase = .waiting ∧ f.exit? = none then some (f.take s item) else none
  | .close => if f.phase = .waiting ∧ f.exit? = none then some (f.pause s) else none
  | .send =>
    match f.phase with
    | .delivering head =>
      if f.exit? = none ∧ f.channel.length < f.capacity then
        some { f with phase := .waiting, channel := f.channel ++ [head] }
      else none
    | _ => none
  | .wake => if f.phase = .pausing ∧ f.exit? = none then some { f with phase := .starting } else none
  | .stop => if f.isWaiting then f.exit?.map (f.finish s) else none

/-- What actions do one after the other, if all of them are possible. -/
def run? (s : Service) (f : Feed) : List Action → Option Feed
  | [] => some f
  | action :: rest => (f.step? s action).bind fun g => g.run? s rest

theorem run?_append (s : Service) (f : Feed) (front back : List Action) :
    f.run? s (front ++ back) = (f.run? s front).bind fun g => g.run? s back := by
  induction front generalizing f with
  | nil => rfl
  | cons action rest ih =>
    rw [List.cons_append, run?, run?]
    cases f.step? s action with
    | none => rfl
    | some g => exact ih g

end Feed

end ChainHead
