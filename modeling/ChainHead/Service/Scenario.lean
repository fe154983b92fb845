import ChainHead.Service.Basic

/-! A service in a network, driven from outside. Between two commands the service goes as far as it can
without time passing; a pause ends only when a command waits for what comes behind it. So what a scenario
shows does not hang on the clock. -/

namespace ChainHead

/-- A service, the session it follows once it has asked for it, and the network. -/
structure World where
  service : Service
  feed : Feed
  started : Bool := false
  session : Option (List StreamItem × Bool) := none
  network : Stream.Network
  requests : List Http.Target := []

namespace World

def openSession (w : World) : World :=
  match Stream.target w.service.url with
  | .error _ => { w with session := some ([], true) }
  | .ok target =>
    let s := Stream.open? target w.network
    { w with
      session := some (s.items, s.staysOpen)
      network := w.network.after s
      requests := w.requests ++ s.requests }

def nextOfSession (w : World) : World × Option Action :=
  match w.session with
  | none => (w.openSession, none)
  | some (item :: rest, staysOpen) => ({ w with session := some (rest, staysOpen) }, some (.yield item))
  | some ([], true) => (w, none)
  | some ([], false) => (w, some .close)

/-- What comes next without time passing: the world, and the action of the service if there is one. -/
def next (w : World) : World × Option Action :=
  match w.feed.phase, w.feed.exit? with
  | .starting, _ => ({ w with session := none }, some .connect)
  | .waiting, none => w.nextOfSession
  | .delivering _, none => (w, some .send)
  | .pausing, none => (w, none)
  | .waiting, some _ | .delivering _, some _ | .pausing, some _ => (w, some .stop)
  | .finished _, _ => (w, none)

/-- Does an action of the service, if it is possible. -/
def act (w : World) (action : Action) : Option World :=
  (w.feed.step? w.service action).map fun feed => { w with feed }

/-- Goes as far as it can, in so many steps at most. -/
def settle : Nat → World → World
  | 0, w => w
  | fuel + 1, w =>
    match w.next with
    | (v, some action) =>
      match v.act action with
      | some u => settle fuel u
      | none => v
    | (v, none) => if w.session.isNone && v.session.isSome then settle fuel v else v

def sizeOf (network : Stream.Network) : Nat :=
  match network with
  | .unreachable => 0
  | .reached connections =>
    connections.foldl (fun n c =>
      match c with
      | .replied reply => n + reply.chunks.flatten.length
      | _ => n) 0

/-- Goes as far as it can. Each byte that is left can bring an item, and each item takes two steps. -/
def rest (w : World) : World :=
  if w.started then
    let waiting := (w.session.map (·.1.length)).getD 0
    settle (2 * (sizeOf w.network + waiting) + 8) w
  else w

/-- Ends the pause, if the service pauses. -/
def wake? (w : World) : Option World :=
  (w.act .wake).map rest

/-- Goes on through at most so many pauses, until a condition holds. -/
def waitFor (holds : World → Bool) : Nat → World → Option World
  | 0, w => if holds w.rest then some w.rest else none
  | fuel + 1, w =>
    if holds w.rest then some w.rest
    else w.rest.wake?.bind (waitFor holds fuel)

def patience (w : World) (wanted : Nat) : Nat :=
  wanted + 1 +
    match w.network with
    | .unreachable => 0
    | .reached connections => connections.length

inductive Command where
  | start
  | receive (count : Nat)
  | drain
  | untilLogged (message : String) (count : Nat)
  | untilRequested (count : Nat)
  | cancel
  | dropReceiver
  | join
deriving DecidableEq

/-- The answer to a command. A head is missing where the channel was closed. -/
inductive Reply where
  | ok
  | received (heads : List (Option HeadEvent))
  | finished
  | timeout
deriving DecidableEq

def isFinished (w : World) : Bool :=
  match w.feed.phase with
  | .finished _ => true
  | _ => false

/-- Receives one head: none if the channel is closed and empty, nothing at all if no head comes. -/
def receiveOne (w : World) : Option (World × Option HeadEvent) := do
  let v ← waitFor (fun v => !v.feed.channel.isEmpty || v.isFinished) (w.patience 1) w
  match v.feed.channel with
  | [] => return (v, none)
  | head :: _ => return ((← v.act .receive).rest, some head)

def receiveMany : Nat → World → Option (World × List (Option HeadEvent))
  | 0, w => some (w, [])
  | count + 1, w => do
    let (v, head) ← w.receiveOne
    let (u, heads) ← receiveMany count v
    return (u, head :: heads)

/-- Receives what is there, up to a number of heads. -/
def drain : Nat → World → World × List (Option HeadEvent)
  | 0, w => (w, [])
  | count + 1, w =>
    match w.feed.channel with
    | [] => (w, [])
    | head :: _ =>
      match w.act .receive with
      | none => (w, [])
      | some v =>
        let (u, heads) := drain count v.rest
        (u, some head :: heads)

def answered (w : World) (reply : Reply) : Option World → World × Reply
  | some v => (v, reply)
  | none => (w, .timeout)

def obey (w : World) : Command → World × Reply
  | .start => ({ w with started := true }.rest, .ok)
  | .receive count =>
    match w.receiveMany count with
    | some (v, heads) => (v, .received heads)
    | none => (w, .timeout)
  | .drain =>
    let (v, heads) := w.drain (w.feed.channel.length + sizeOf w.network + 1)
    (v, .received heads)
  | .untilLogged message count =>
    let holds (v : World) : Bool := count ≤ v.feed.log.countP (·.message = message)
    w.answered .ok (waitFor holds (w.patience count) w)
  | .untilRequested count =>
    let holds (v : World) : Bool := count ≤ v.requests.length
    w.answered .ok (waitFor holds (w.patience count) w)
  | .cancel => (((w.act .cancel).getD w).rest, .ok)
  | .dropReceiver => (((w.act .dropReceiver).getD w).rest, .ok)
  | .join => w.answered .finished (waitFor isFinished 0 w)

def obeyAll (w : World) : List Command → World × List Reply
  | [] => (w, [])
  | command :: rest =>
    let (v, reply) := w.obey command
    let (u, replies) := v.obeyAll rest
    (u, reply :: replies)

end World

end ChainHead
