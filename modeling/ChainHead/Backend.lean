import ChainHead.Service.OfClient

/-! What a follower of the chain needs from a node, whoever provides it: the service that brings heads, and
the questions that the node answers. Two of the questions can be answered from the others, and are unless the
provider has answers of its own. -/

namespace ChainHead

open Http (Network)

/-- A provider of the operations of a node. -/
structure Backend where
  url : Url
  service : Service
  syncStatus : Network → Outcome SyncStatus
  currentSlot : Network → Outcome UInt64 := fun network => (syncStatus network).map (·.headSlot)
  proposerDuties : UInt64 → Network → Outcome (List ProposerDuty)
  header : Network → Outcome HeaderInfo
  headerForSlot : UInt64 → Network → Outcome HeaderInfo
  block : BlockId → Network → Outcome Block
  blockForSlot : UInt64 → Network → Outcome Block := fun slot => block (.slot slot)
  publishBlock : SignedBlock → Network → Outcome Nat
  genesis : Network → Outcome Genesis
  spec : Network → Outcome ChainSpec
  forkSchedule : Network → Outcome (List Fork)
  randao : UInt64 → Network → Outcome Hash
  withdrawals : UInt64 → Network → Outcome (List Withdrawal)
  fetchValidators : UInt64 → Network → Outcome Snapshot

def Client.minimal [Url.Idna] (c : Client) : Backend where
  url := c.url
  service := c.service
  syncStatus := c.syncStatus
  proposerDuties := c.proposerDuties
  header := c.header
  headerForSlot := c.headerForSlot
  block := c.block
  publishBlock := c.publishBlock
  genesis := c.genesis
  spec := c.spec
  forkSchedule := c.forkSchedule
  randao := c.randao
  withdrawals := c.withdrawals
  fetchValidators := c.fetchValidators

def Client.backend [Url.Idna] (c : Client) : Backend :=
  { c.minimal with
    currentSlot := c.currentSlot
    blockForSlot := c.blockForSlot }

end ChainHead
