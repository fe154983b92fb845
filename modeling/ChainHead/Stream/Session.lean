import ChainHead.Beacon.Endpoint
import ChainHead.Beacon.Records
import ChainHead.Error
import ChainHead.Stream.Event

/-! Sessions. A session is one attempt to follow the head events of a node: it asks for the stream, follows
redirections to other places, and yields what the stream tells about heads, until the stream ends.
It never comes back by itself. -/

namespace ChainHead

inductive StreamItem where
  | connected
  | head (event : HeadEvent)
  | failed (error : Error)
deriving DecidableEq

/-- The head that an item brings, if it brings one. -/
def StreamItem.head? : StreamItem → Option HeadEvent
  | .head event => some event
  | _ => none

namespace Stream

def headType : String := "head"

/-- What is yielded for what a stream told. Events of other types are passed over. -/
def item? : Told → Option StreamItem
  | .error fault => some (.failed (.malformedEvent fault))
  | .ok event =>
    if event.type = headType then
      match HeadEvent.codec.decode (Utf8.encode event.data.toList) with
      | .ok head => some (.head head)
      | .error fault => some (.failed (.decode fault))
    else none

def target (base : Url) : Except Error Http.Target :=
  match Endpoint.headEvents.url base with
  | .error fault => .error (.url fault)
  | .ok url =>
    match Http.Target.ofUrl url with
    | .error fault => .error (.config (.badStreamUrl fault))
    | .ok target => .ok target

/-- How a body ends behind its last chunk: as it should, by a connection that breaks off, or not at all. -/
inductive Ending where
  | closed
  | aborted
  | never
deriving DecidableEq, Repr

/-- What an ending brings. A body that breaks off is not told from one that is complete. -/
def Ending.items (fault : StreamFault) : Ending → List StreamItem
  | .closed | .aborted => [.failed (.stream fault)]
  | .never => []

/-- A response to the request for a stream: its body comes in chunks. -/
structure Reply where
  status : Nat := 200
  fields : List (String × String) := []
  chunks : List (List UInt8) := []
  ending : Ending := .closed
deriving DecidableEq, Repr

inductive Connection where
  | dropped
  | silent
  | replied (reply : Reply)
deriving DecidableEq, Repr

/-- A network. One that is reached takes its connections in order, whatever is asked for, and then never answers
again. -/
inductive Network where
  | unreachable
  | reached (connections : List Connection)
deriving DecidableEq, Repr

/-- A session: what it yields, whether it stays open behind that, the targets that were asked for, and the
connections that are left. -/
structure Session where
  items : List StreamItem
  staysOpen : Bool
  requests : List Http.Target
  left : List Connection

def Session.failed (fault : StreamFault) (left : List Connection) : Session :=
  ⟨[.failed (.stream fault)], false, [], left⟩

def Session.after (target : Http.Target) (s : Session) : Session :=
  { s with requests := target :: s.requests }

def bodyItems (chunks : List (List UInt8)) (ending : Ending) : List StreamItem :=
  let (p, told) := Parser.feedAll {} chunks
  told.filterMap item? ++ ending.items p.ending

def redirectLimit : Nat := 16

def isRedirection (status : Nat) : Bool := status = 301 || status = 307

def connect (left : Nat) (target : Http.Target) : List Connection → Session
  | [] =>
    if target.isSpoken then ⟨[], true, [target], []⟩ else .failed .noResponse []
  | connection :: rest =>
    if !target.isSpoken then .failed .noResponse (connection :: rest)
    else
      match connection with
      | .dropped => (Session.failed .noResponse rest).after target
      | .silent => ⟨[], true, [target], rest⟩
      | .replied reply =>
        if Http.isSuccess reply.status then
          ⟨.connected :: bodyItems reply.chunks reply.ending, reply.ending = .never, [target], rest⟩
        else if isRedirection reply.status then
          if left = 0 then (Session.failed .tooManyRedirections rest).after target
          else
            match (Http.field? reply.fields "location").map Http.Target.read with
            | some (.ok next) => (connect (left - 1) next rest).after target
            | _ => (Session.failed .badLocation rest).after target
        else (Session.failed .unexpectedResponse rest).after target

def open? (target : Http.Target) : Network → Session
  | .unreachable => .failed .noResponse []
  | .reached connections => connect redirectLimit target connections

def Network.after (s : Session) : Network → Network
  | .unreachable => .unreachable
  | .reached _ => .reached s.left

end Stream

end ChainHead
