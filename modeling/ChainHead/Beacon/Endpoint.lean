import ChainHead.Beacon.BlockId
import ChainHead.Url.Reference

/-! What a beacon node can be asked for, and the URL of each of it below the base URL of the node. -/

namespace ChainHead

inductive Endpoint where
  | syncing
  | proposerDuties (epoch : UInt64)
  | headHeader
  | header (slot : UInt64)
  | block (id : BlockId)
  | blocks
  | genesis
  | spec
  | forkSchedule
  | randao (slot : UInt64)
  | withdrawals (slot : UInt64)
  | validators (slot : UInt64)
  | headEvents
deriving DecidableEq

namespace Endpoint

def numbered (n : UInt64) : String := Numeral.text n.toNat

def segments : Endpoint → List String
  | .syncing => ["eth", "v1", "node", "syncing"]
  | .proposerDuties epoch => ["eth", "v1", "validator", "duties", "proposer", numbered epoch]
  | .headHeader => ["eth", "v1", "beacon", "headers", "head"]
  | .header slot => ["eth", "v1", "beacon", "headers", numbered slot]
  | .block id => ["eth", "v2", "beacon", "blocks", id.text]
  | .blocks => ["eth", "v1", "beacon", "blocks"]
  | .genesis => ["eth", "v1", "beacon", "genesis"]
  | .spec => ["eth", "v1", "config", "spec"]
  | .forkSchedule => ["eth", "v1", "config", "fork_schedule"]
  | .randao slot => ["eth", "v1", "beacon", "states", numbered slot, "randao"]
  | .withdrawals slot => ["eth", "v1", "beacon", "states", numbered slot, "withdrawals"]
  | .validators slot => ["eth", "v1", "beacon", "states", numbered slot, "validators"]
  | .headEvents => ["eth", "v1", "events"]

def parameter? : Endpoint → Option (String × String)
  | .validators _ => some ("status", "active,pending")
  | .headEvents => some ("topics", "head")
  | _ => none

def reference (e : Endpoint) : String := String.intercalate "/" e.segments

def withParameter (e : Endpoint) (u : Url) : Url :=
  match e.parameter? with
  | none => u
  | some (name, value) => u.addParameter name value

/-- The URL of the resource. The base counts as a directory whether or not it ends in a slash. -/
def url (e : Endpoint) (base : Url) : Except Url.Fault Url :=
  (base.directory.descend e.reference).map e.withParameter

end Endpoint

end ChainHead
