import ChainHead.Follower

/-! The consumer of head events. It takes heads from a channel, and handles each of them to its end before it takes
the next one: it puts its questions to the node, and waits for the answer to each of them. It ends when it is told to,
or when the channel is closed and nothing is left in it, but takes notice of neither while it handles a head.
`Consumer.step?` says what each action does and when it is possible; heads come in, senders leave and the end
is called for at any time, also while a head is handled. -/

namespace ChainHead

inductive Answer where
  | syncStatus (result : Except Error SyncStatus)
  | proposerDuties (result : Except Error (List ProposerDuty))
  | validators (result : Except Error Snapshot)

/-- How far a head is handled: what the node is asked, and what will be needed of its answers. -/
inductive Follower.Stage where
  | syncStatus
  | proposerDuties
  | validators (duties : List ProposerDuty)
deriving DecidableEq

/-- What an answer leads to: the next stage, unless the head is done with. -/
structure Follower.Progress where
  follower : Follower
  stage : Option Follower.Stage := none
  log : List LogEntry := []

/-- What a follower makes of an answer. It takes an answer to what it asks, and no other one. -/
def Follower.hear (f : Follower) (head : HeadEvent) : Stage → Answer → Option Progress
  | .syncStatus, .syncStatus result =>
    let stage := if f.refreshed = some (f.epoch head.slot) then none else some .proposerDuties
    some { follower := f, stage, log := [syncEntry result] }
  | .proposerDuties, .proposerDuties (.error e) =>
    some { follower := f, log := [noDutiesEntry (f.epoch head.slot) e] }
  | .proposerDuties, .proposerDuties (.ok duties) =>
    some { follower := f, stage := some (.validators duties) }
  | .validators _, .validators (.error e) =>
    some { follower := f, log := [noValidatorsEntry head.slot e] }
  | .validators duties, .validators (.ok validators) =>
    let epoch := f.epoch head.slot
    some { follower := { f with refreshed := some epoch }, log := [refreshedEntry epoch duties validators] }
  | _, _ => none

inductive Consumer.Ending where
  | shutdown
  | channelClosed
deriving DecidableEq, Repr

/-- What a consumer is doing: waiting for a head, handling one, or nothing any more. -/
inductive Consumer.Phase where
  | waiting
  | handling (head : HeadEvent) (stage : Follower.Stage)
  | finished (ending : Consumer.Ending)
deriving DecidableEq

structure Consumer where
  follower : Follower
  phase : Consumer.Phase := .waiting
  queue : List HeadEvent := []
  closed : Bool := false
  cancelled : Bool := false
  log : List LogEntry := []
deriving DecidableEq

namespace Consumer

inductive Action where
  | send (head : HeadEvent)
  | closeChannel
  | cancel
  | take
  | hear (answer : Answer)
  | stop

def ofSlotsPerEpoch (slots : UInt64) : Consumer := { follower := .ofSlotsPerEpoch slots }

def cancelledEntry : LogEntry :=
  { level := .info, message := "HeadConsumer received shutdown signal" }

def closedEntry : LogEntry :=
  { level := .info, message := "Head event channel closed" }

def Ending.entry : Ending → LogEntry
  | .shutdown => cancelledEntry
  | .channelClosed => closedEntry

def isFinished (c : Consumer) : Bool :=
  match c.phase with
  | .finished _ => true
  | .waiting | .handling _ _ => false

/-- Why the consumer has to end when it waits for a head, if it has to. The end that was called for comes first. -/
def ending? (c : Consumer) : Option Ending :=
  if c.cancelled then some .shutdown
  else if c.closed && c.queue.isEmpty then some .channelClosed
  else none

def begin (c : Consumer) (head : HeadEvent) (rest : List HeadEvent) : Consumer :=
  { c with
    phase := .handling head .syncStatus
    queue := rest
    log := c.log ++ [Follower.headEntry head] }

def proceed (c : Consumer) (head : HeadEvent) (p : Follower.Progress) : Consumer :=
  { c with
    follower := p.follower
    phase := match p.stage with
      | some stage => .handling head stage
      | none => .waiting
    log := c.log ++ p.log }

def finish (c : Consumer) (ending : Ending) : Consumer :=
  { c with phase := .finished ending, log := c.log ++ [ending.entry] }

/-- What an action does, if it is possible. Nothing is sent to a consumer that has ended. -/
def step? (c : Consumer) : Action → Option Consumer
  | .send head => if c.closed || c.isFinished then none else some { c with queue := c.queue ++ [head] }
  | .closeChannel => some { c with closed := true }
  | .cancel => some { c with cancelled := true }
  | .take =>
    match c.phase, c.queue with
    | .waiting, head :: rest => if c.cancelled then none else some (c.begin head rest)
    | _, _ => none
  | .hear answer =>
    match c.phase with
    | .handling head stage => (c.follower.hear head stage answer).map (c.proceed head)
    | .waiting | .finished _ => none
  | .stop => if c.phase = .waiting then c.ending?.map c.finish else none

/-- What actions do one after the other, if all of them are possible. -/
def run? (c : Consumer) : List Action → Option Consumer
  | [] => some c
  | action :: rest => (c.step? action).bind fun d => d.run? rest

theorem run?_append (c : Consumer) (front back : List Action) :
    c.run? (front ++ back) = (c.run? front).bind fun d => d.run? back := by
  induction front generalizing c with
  | nil => rfl
  | cons action rest ih =>
    rw [List.cons_append, run?, run?]
    cases c.step? action with
    | none => rfl
    | some d => exact ih d

end Consumer

end ChainHead
