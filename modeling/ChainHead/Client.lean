import ChainHead.Beacon.Endpoint
import ChainHead.Beacon.Snapshot
import ChainHead.Fetch

/-! The client of a beacon node. It has one operation for each resource, which asks for the resource below the
base URL and takes the data out of its envelope. Nothing is tried twice. -/

namespace ChainHead

/-- A client. Its base URL ends in a slash. Times are in milliseconds. -/
structure Client where
  name : String
  url : Url
  requestTimeout : UInt64
  validatorsTimeout : UInt64 := Settings.defaultValidatorsTimeout
  reconnectDelay : UInt64 := Settings.defaultReconnectDelay

namespace Client

open Http (Network)

def ofUrl (name : String) (url : Url) (requestTimeout : UInt64) : Client :=
  { name, url := url.directory, requestTimeout }

/-- Sets the time for the validator set, which replaces the time for a request there only. -/
def withValidatorsTimeout (c : Client) (timeout : UInt64) : Client := { c with validatorsTimeout := timeout }

def withReconnectDelay (c : Client) (delay : UInt64) : Client := { c with reconnectDelay := delay }

def ofSettings (s : Settings) : Client :=
  ((ofUrl s.node.name s.node.url s.requestTimeout).withValidatorsTimeout s.validatorsTimeout).withReconnectDelay
    s.reconnectDelay

/-- What sends the requests of a client. -/
def fetcher (c : Client) : Fetcher := ⟨c.requestTimeout⟩

variable {α : Type}

/-- Asks for the data of a resource, waiting for a time at most. -/
def query [Url.Idna] (c : Client) (timeout : UInt64) (e : Endpoint) (codec : Wire.Codec α) (network : Network) :
    Outcome α :=
  match e.url c.url with
  | .error fault => .failed (.url fault) network
  | .ok url => Fetch.get timeout url (enveloped codec) network

def ask [Url.Idna] (c : Client) (e : Endpoint) (codec : Wire.Codec α) : Network → Outcome α :=
  c.query c.requestTimeout e codec

def syncStatus [Url.Idna] (c : Client) : Network → Outcome SyncStatus :=
  c.ask .syncing SyncStatus.codec

def currentSlot [Url.Idna] (c : Client) (network : Network) : Outcome UInt64 :=
  (c.syncStatus network).map (·.headSlot)

def proposerDuties [Url.Idna] (c : Client) (epoch : UInt64) : Network → Outcome (List ProposerDuty) :=
  c.ask (.proposerDuties epoch) (Wire.list ProposerDuty.codec)

def header [Url.Idna] (c : Client) : Network → Outcome HeaderInfo :=
  c.ask .headHeader HeaderInfo.codec

def headerForSlot [Url.Idna] (c : Client) (slot : UInt64) : Network → Outcome HeaderInfo :=
  c.ask (.header slot) HeaderInfo.codec

def block [Url.Idna] (c : Client) (id : BlockId) : Network → Outcome Block :=
  c.ask (.block id) Block.codec

def blockForSlot [Url.Idna] (c : Client) (slot : UInt64) : Network → Outcome Block :=
  c.block (.slot slot)

/-- Hands a signed block in, and gives the status of the response. -/
def publishBlock [Url.Idna] (c : Client) (block : SignedBlock) (network : Network) : Outcome Nat :=
  match Endpoint.blocks.url c.url with
  | .error fault => .failed (.url fault) network
  | .ok url => Fetch.post c.requestTimeout url SignedBlock.codec block network

def genesis [Url.Idna] (c : Client) : Network → Outcome Genesis :=
  c.ask .genesis Genesis.codec

def spec [Url.Idna] (c : Client) : Network → Outcome ChainSpec :=
  c.ask .spec ChainSpec.codec

def forkSchedule [Url.Idna] (c : Client) : Network → Outcome (List Fork) :=
  c.ask .forkSchedule (Wire.list Fork.codec)

def randao [Url.Idna] (c : Client) (slot : UInt64) (network : Network) : Outcome Hash :=
  (c.ask (.randao slot) RandaoInfo.codec network).map (·.randao)

def withdrawals [Url.Idna] (c : Client) (slot : UInt64) (network : Network) : Outcome (List Withdrawal) :=
  (c.ask (.withdrawals slot) WithdrawalsInfo.codec network).map (·.withdrawals)

def validatorsEntry (c : Client) (slot : UInt64) (s : Snapshot) : LogEntry :=
  { level := .debug
    message := "Fetched validator set"
    fields :=
      [("name", c.name), ("slot", Numeral.text slot.toNat), ("validators", Numeral.text s.size)] }

/-- The active and pending validators as of a slot. This answer is far larger than the others and has a
time of its own. -/
def fetchValidators [Url.Idna] (c : Client) (slot : UInt64) (network : Network) : Outcome Snapshot :=
  let o := c.query c.validatorsTimeout (.validators slot) (Wire.list ValidatorEntry.codec) network
  let snapshot := o.map Snapshot.ofRows
  match snapshot.result with
  | .ok s => { snapshot with log := snapshot.log ++ [c.validatorsEntry slot s] }
  | .error _ => snapshot

end Client

end ChainHead
