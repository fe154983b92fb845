import ChainHead.Backend

/-! What is done about a head. The node is asked whether it is synced, and once in each epoch for the duties
of its proposers and for the validators. An epoch counts as refreshed only when both have arrived; until then
every head of it tries again. Nothing of what the node answers is trusted to be about the head itself. -/

namespace ChainHead

/-- A follower: the number of slots in an epoch, and the epoch that was refreshed last. -/
structure Follower where
  slotsPerEpoch : UInt64
  refreshed : Option UInt64 := none
  slots_ne_zero : slotsPerEpoch ≠ 0
deriving DecidableEq

inductive Question where
  | syncStatus
  | proposerDuties (epoch : UInt64)
  | validators (slot : UInt64)
deriving DecidableEq, Repr

/-- How the node answers while a head is handled. -/
structure Answers where
  syncStatus : Except Error SyncStatus
  proposerDuties : UInt64 → Except Error (List ProposerDuty)
  validators : UInt64 → Except Error Snapshot

namespace Follower

def defaultSlotsPerEpoch : UInt64 := 32

/-- The follower of a chain. An epoch has at least one slot. -/
def ofSlotsPerEpoch (slots : UInt64) : Follower :=
  if h : slots ≠ 0 then ⟨slots, none, h⟩ else ⟨1, none, by decide⟩

def epoch (f : Follower) (slot : UInt64) : UInt64 := slot / f.slotsPerEpoch

def numberField (name : String) (n : Nat) : String × String := (name, Numeral.text n)

def errorField (e : Error) : String × String := ("error", e.message)

def headEntry (head : HeadEvent) : LogEntry :=
  { level := .info
    message := "New head"
    fields := [numberField "slot" head.slot.toNat, ("block", head.block), ("state", head.state)] }

def syncEntry : Except Error SyncStatus → LogEntry
  | .ok status =>
    let fields := [numberField "head_slot" status.headSlot.toNat]
    if status.isSyncing then { level := .warn, message := "Beacon node is syncing", fields }
    else { level := .debug, message := "Beacon node is synced", fields }
  | .error e =>
    { level := .warn, message := "Failed to fetch sync status", fields := [errorField e] }

def noDutiesEntry (epoch : UInt64) (e : Error) : LogEntry :=
  { level := .warn
    message := "Failed to fetch proposer duties, retrying on next head"
    fields := [numberField "epoch" epoch.toNat, errorField e] }

def noValidatorsEntry (slot : UInt64) (e : Error) : LogEntry :=
  { level := .warn
    message := "Failed to fetch validators, retrying on next head"
    fields := [numberField "slot" slot.toNat, errorField e] }

def refreshedEntry (epoch : UInt64) (duties : List ProposerDuty) (validators : Snapshot) : LogEntry :=
  { level := .info
    message := "Refreshed epoch state"
    fields :=
      [numberField "epoch" epoch.toNat, numberField "proposer_duties" duties.length,
        numberField "validators" validators.size] }

structure Handled where
  follower : Follower
  questions : List Question
  log : List LogEntry

def refresh (f : Follower) (a : Answers) (epoch slot : UInt64) : Handled :=
  match a.proposerDuties epoch with
  | .error e => ⟨f, [.proposerDuties epoch], [noDutiesEntry epoch e]⟩
  | .ok duties =>
    match a.validators slot with
    | .error e =>
      ⟨f, [.proposerDuties epoch, .validators slot], [noValidatorsEntry slot e]⟩
    | .ok validators =>
      ⟨{ f with refreshed := some epoch }, [.proposerDuties epoch, .validators slot],
        [refreshedEntry epoch duties validators]⟩

def handle (f : Follower) (a : Answers) (head : HeadEvent) : Handled :=
  let entries := [headEntry head, syncEntry a.syncStatus]
  let epoch := f.epoch head.slot
  if f.refreshed = some epoch then ⟨f, [.syncStatus], entries⟩
  else
    let h := f.refresh a epoch head.slot
    ⟨h.follower, .syncStatus :: h.questions, entries ++ h.log⟩

/-- Handles heads one after the other, each with the answers that come while it is handled. -/
def handleAll (f : Follower) : List (HeadEvent × Answers) → Handled
  | [] => ⟨f, [], []⟩
  | (head, a) :: rest =>
    let first := f.handle a head
    let others := first.follower.handleAll rest
    ⟨others.follower, first.questions ++ others.questions, first.log ++ others.log⟩

end Follower

/-- The answers of a backend over a network, if it is asked in the order of the questions about one epoch. -/
def Backend.answers (b : Backend) (epoch : UInt64) (network : Http.Network) : Answers :=
  let sync := b.syncStatus network
  { syncStatus := sync.result
    proposerDuties := fun epoch => (b.proposerDuties epoch sync.network).result
    validators := fun slot =>
      (b.fetchValidators slot (b.proposerDuties epoch sync.network).network).result }

/-- The requests that a question leads to, and the network behind them. -/
def Backend.put (b : Backend) (question : Question) (network : Http.Network) :
    List Http.Request × Http.Network :=
  match question with
  | .syncStatus => ((b.syncStatus network).requests, (b.syncStatus network).network)
  | .proposerDuties epoch =>
    ((b.proposerDuties epoch network).requests, (b.proposerDuties epoch network).network)
  | .validators slot =>
    ((b.fetchValidators slot network).requests, (b.fetchValidators slot network).network)

/-- The requests that questions lead to, and the network behind them. -/
def Backend.putAll (b : Backend) : List Question → Http.Network → List Http.Request × Http.Network
  | [], network => ([], network)
  | question :: rest, network =>
    let (requests, behind) := b.put question network
    let (others, last) := b.putAll rest behind
    (requests ++ others, last)

end ChainHead
