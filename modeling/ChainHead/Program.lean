import ChainHead.CommandLine
import ChainHead.Consumer
import ChainHead.Service.OfClient
import ChainHead.Service.Scenario

/-! The program. It reads its settings, asks the node for the number of slots in an epoch, and then lets the
service bring heads to the consumer until it is told to end. `Program.run` is a whole run over given networks,
in which the end is called for when nothing more can come. -/

namespace ChainHead.Program

open Follower (errorField numberField)

def loadedEntry (s : Settings) : LogEntry :=
  { level := .info
    message := "Loaded configuration"
    fields := [("name", s.node.name), ("url", s.node.url.text)] }

def noSpecEntry (e : Error) : LogEntry :=
  { level := .warn
    message := "Failed to read chain spec"
    fields := [errorField e, numberField "default" Follower.defaultSlotsPerEpoch.toNat] }

def endingEntry : LogEntry :=
  { level := .info, message := "Received shutdown signal, shutting down" }

def endedEntry : LogEntry :=
  { level := .info, message := "All services stopped, exiting" }

/-- The slots of an epoch that a node told, and what is logged about it. -/
def slotsOf : Except Error ChainSpec → UInt64 × List LogEntry
  | .ok spec => (spec.slotsPerEpoch, [])
  | .error e => (Follower.defaultSlotsPerEpoch, [noSpecEntry e])

/-- A program that has begun: its client, its follower, and what has happened so far. -/
structure Started where
  client : Client
  follower : Follower
  requests : List Http.Request
  log : List LogEntry
  network : Http.Network

def start [Url.Idna] (s : Settings) (network : Http.Network) : Started :=
  let client := Client.ofSettings s
  let spec := client.spec network
  let (slots, entries) := slotsOf spec.result
  { client
    follower := .ofSlotsPerEpoch slots
    requests := spec.requests
    log := loadedEntry s :: entries
    network := spec.network }

def head? : StreamItem → Option HeadEvent
  | .head head => some head
  | _ => none

/-- The heads of so many sessions, one after the other, with the network between them. -/
def heads (target : Http.Target) : Nat → Stream.Network → List HeadEvent
  | 0, _ => []
  | sessions + 1, network =>
    let s := Stream.open? target network
    let more := if s.staysOpen then [] else heads target sessions (network.after s)
    s.items.filterMap head? ++ more

def allHeads (service : Service) (network : Stream.Network) : List HeadEvent :=
  match Stream.target service.url, network with
  | .ok target, .reached connections => heads target (connections.length + 1) network
  | _, _ => []

def handleAll (b : Backend) : Follower → Http.Network → List HeadEvent → List LogEntry × List Http.Request
  | _, _, [] => ([], [])
  | f, network, head :: rest =>
    let h := f.handle (b.answers (f.epoch head.slot) network) head
    let (requests, behind) := b.putAll h.questions network
    let (log, others) := handleAll b h.follower behind rest
    (h.log ++ log, requests ++ others)

/-- How a run ends: its exit code, its log, what it writes besides, and its requests for anything but
events. -/
structure Result where
  exit : Nat
  log : List LogEntry := []
  output : String := ""
  complaint : String := ""
  requests : List Http.Request := []

/-- What is said when there can be no channel of the room that is asked for. -/
def noChannelText : String :=
  "a semaphore may not have more than MAX_PERMITS permits (" ++ Numeral.text roomLimit ++ ")\n"

def run [Url.Idna] (s : Settings) (network : Http.Network) (events : Stream.Network) : Result :=
  let p := start s network
  match Feed.open? s.headEventBuffer.toNat with
  | none => { exit := 101, log := p.log, complaint := noChannelText, requests := p.requests }
  | some _ =>
    let (log, requests) :=
      handleAll p.client.backend p.follower p.network (allHeads p.client.service events)
    { exit := 0
      log := p.log ++ log ++ [endingEntry, Consumer.cancelledEntry, endedEntry]
      requests := p.requests ++ requests }

def runWith [Url.Idna] (arguments : List String) (folder : Files.Folder) (network : Http.Network)
    (events : Stream.Network) : Result :=
  match CommandLine.read arguments with
  | .error fault => { exit := 2, complaint := fault.message }
  | .ok .help => { exit := 0, output := CommandLine.helpText }
  | .ok (.follow path) =>
    match Settings.load folder path with
    | .error fault => { exit := 1, complaint := CommandLine.errorText (.ofSettings fault) }
    | .ok s => run s network events

end ChainHead.Program
