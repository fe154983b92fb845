import ChainHead.Beacon.PublicKey

/-! The records of the beacon node interface and their JSON forms. Each record is described once, by
its codec; the names in the descriptions are those of the interface. Answers carry their content in
an envelope with the one member `data`. -/

namespace ChainHead

open Wire

abbrev Hash := Vector UInt8 32

abbrev Address := Vector UInt8 20

abbrev ForkVersion := Vector UInt8 4

def enveloped {α : Type} (c : Codec α) : Codec α :=
  record "DataResponse" (required "data" c .nil) (fun (a, _) => a) (fun a => (a, ()))

/-- The node has a new head: its slot and the roots of its block and state, kept as sent. -/
structure HeadEvent where
  slot : UInt64
  block : String
  state : String
deriving DecidableEq, Repr

def HeadEvent.codec : Codec HeadEvent :=
  record "HeadEvent"
    (required "slot" quoted <| required "block" text <| required "state" text .nil)
    (fun (slot, block, state, _) => ⟨slot, block, state⟩)
    (fun e => (e.slot, e.block, e.state, ()))

/-- How far the node is behind the chain. -/
structure SyncStatus where
  headSlot : UInt64
  isSyncing : Bool
  isOptimistic : Option Bool
deriving DecidableEq, Repr

def SyncStatus.codec : Codec SyncStatus :=
  record "SyncStatus"
    (required "head_slot" quoted <| required "is_syncing" flag <|
      nullable "is_optimistic" flag .nil)
    (fun (headSlot, isSyncing, isOptimistic, _) => ⟨headSlot, isSyncing, isOptimistic⟩)
    (fun s => (s.headSlot, s.isSyncing, s.isOptimistic, ()))

/-- One row of the validator registry. The balance is kept as sent. -/
structure ValidatorEntry where
  index : UInt64
  balance : String
  status : String
  key : PublicKey
deriving DecidableEq

def ValidatorEntry.keyCodec : Codec PublicKey :=
  record "ValidatorData" (required "pubkey" PublicKey.codec .nil) (fun (k, _) => k) (fun k => (k, ()))

def ValidatorEntry.codec : Codec ValidatorEntry :=
  record "ValidatorEntry"
    (required "index" quoted <| required "balance" text <| required "status" text <|
      required "validator" keyCodec .nil)
    (fun (index, balance, status, key, _) => ⟨index, balance, status, key⟩)
    (fun e => (e.index, e.balance, e.status, e.key, ()))

structure ProposerDuty where
  key : PublicKey
  slot : UInt64
deriving DecidableEq

def ProposerDuty.codec : Codec ProposerDuty :=
  record "ProposerDuty"
    (required "pubkey" PublicKey.codec <| required "slot" quoted .nil)
    (fun (key, slot, _) => ⟨key, slot⟩)
    (fun d => (d.key, d.slot, ()))

structure BlockHeader where
  slot : UInt64
  proposerIndex : UInt64
  parentRoot : Hash
  stateRoot : Hash
  bodyRoot : Hash
deriving DecidableEq

def BlockHeader.codec : Codec BlockHeader :=
  record "BeaconBlockHeader"
    (required "slot" quoted <| required "proposer_index" quoted <|
      required "parent_root" (fixed 32) <| required "state_root" (fixed 32) <|
      required "body_root" (fixed 32) .nil)
    (fun (slot, proposerIndex, parentRoot, stateRoot, bodyRoot, _) =>
      ⟨slot, proposerIndex, parentRoot, stateRoot, bodyRoot⟩)
    (fun h => (h.slot, h.proposerIndex, h.parentRoot, h.stateRoot, h.bodyRoot, ()))

/-- A block header with the root of its block. -/
structure HeaderInfo where
  root : Hash
  message : BlockHeader
deriving DecidableEq

/-- The signed header around a header; the signature is not read. -/
def HeaderInfo.signedCodec : Codec BlockHeader :=
  record "SignedBlockHeader" (required "message" BlockHeader.codec .nil)
    (fun (h, _) => h) (fun h => (h, ()))

def HeaderInfo.codec : Codec HeaderInfo :=
  record "HeaderInfo"
    (required "root" (fixed 32) <| required "header" signedCodec .nil)
    (fun (root, message, _) => ⟨root, message⟩)
    (fun h => (h.root, h.message, ()))

/-- A withdrawal from the chain to an account; the amount is in gwei. -/
structure Withdrawal where
  index : UInt64
  validatorIndex : UInt64
  address : Address
  amount : UInt64
deriving DecidableEq

def Withdrawal.codec : Codec Withdrawal :=
  record "Withdrawal"
    (required "index" quoted <| required "validator_index" quoted <|
      required "address" (fixed 20) <| required "amount" quoted .nil)
    (fun (index, validatorIndex, address, amount, _) => ⟨index, validatorIndex, address, amount⟩)
    (fun w => (w.index, w.validatorIndex, w.address, w.amount, ()))

/-- What a block executes. The base fee is kept as sent; withdrawals came with a later fork. -/
structure ExecutionPayload where
  parentHash : Hash
  feeRecipient : Address
  stateRoot : Hash
  receiptsRoot : Hash
  logsBloom : Vector UInt8 256
  prevRandao : Hash
  blockNumber : UInt64
  gasLimit : UInt64
  gasUsed : UInt64
  timestamp : UInt64
  extraData : List UInt8
  baseFeePerGas : String
  blockHash : Hash
  transactions : List (List UInt8)
  withdrawals : Option (List Withdrawal)
deriving DecidableEq

def ExecutionPayload.codec : Codec ExecutionPayload :=
  record "ExecutionPayload"
    (required "parent_hash" (fixed 32) <| required "fee_recipient" (fixed 20) <|
      required "state_root" (fixed 32) <| required "receipts_root" (fixed 32) <|
      required "logs_bloom" (fixed 256) <| required "prev_randao" (fixed 32) <|
      required "block_number" quoted <| required "gas_limit" quoted <|
      required "gas_used" quoted <| required "timestamp" quoted <|
      required "extra_data" blob <| required "base_fee_per_gas" text <|
      required "block_hash" (fixed 32) <| required "transactions" (list blob) <|
      omissible "withdrawals" (list Withdrawal.codec) .nil)
    (fun (parentHash, feeRecipient, stateRoot, receiptsRoot, logsBloom, prevRandao, blockNumber,
        gasLimit, gasUsed, timestamp, extraData, baseFeePerGas, blockHash, transactions,
        withdrawals, _) =>
      ⟨parentHash, feeRecipient, stateRoot, receiptsRoot, logsBloom, prevRandao, blockNumber,
        gasLimit, gasUsed, timestamp, extraData, baseFeePerGas, blockHash, transactions,
        withdrawals⟩)
    (fun p => (p.parentHash, p.feeRecipient, p.stateRoot, p.receiptsRoot, p.logsBloom,
      p.prevRandao, p.blockNumber, p.gasLimit, p.gasUsed, p.timestamp, p.extraData,
      p.baseFeePerGas, p.blockHash, p.transactions, p.withdrawals, ()))

/-- A block, of which only the slot and the execution payload are kept. A block from before the merge
has no payload. -/
structure Block where
  slot : UInt64
  payload : Option ExecutionPayload
deriving DecidableEq

def Block.bodyCodec : Codec (Option ExecutionPayload) :=
  record "BlockBody" (omissible "execution_payload" ExecutionPayload.codec .nil)
    (fun (p, _) => p) (fun p => (p, ()))

def Block.messageCodec : Codec Block :=
  record "BlockMessage"
    (required "slot" quoted <| required "body" bodyCodec .nil)
    (fun (slot, payload, _) => ⟨slot, payload⟩)
    (fun b => (b.slot, b.payload, ()))

def Block.codec : Codec Block :=
  record "Block" (required "message" messageCodec .nil) (fun (b, _) => b) (fun b => (b, ()))

/-- A block to be published; its body may be any JSON value and is kept as it is. -/
structure ProposedBlock where
  slot : UInt64
  proposerIndex : UInt64
  parentRoot : Hash
  stateRoot : Hash
  body : Json.Value

def ProposedBlock.codec : Codec ProposedBlock :=
  record "BeaconBlock"
    (required "slot" quoted <| required "proposer_index" quoted <|
      required "parent_root" (fixed 32) <| required "state_root" (fixed 32) <|
      required "body" anything .nil)
    (fun (slot, proposerIndex, parentRoot, stateRoot, body, _) =>
      ⟨slot, proposerIndex, parentRoot, stateRoot, body⟩)
    (fun b => (b.slot, b.proposerIndex, b.parentRoot, b.stateRoot, b.body, ()))

/-- A block to be published, with its signature. -/
structure SignedBlock where
  message : ProposedBlock
  signature : List UInt8

def SignedBlock.codec : Codec SignedBlock :=
  record "SignedBeaconBlock"
    (required "message" ProposedBlock.codec <| required "signature" blob .nil)
    (fun (message, signature, _) => ⟨message, signature⟩)
    (fun b => (b.message, b.signature, ()))

structure Genesis where
  time : UInt64
  validatorsRoot : Hash
  forkVersion : ForkVersion
deriving DecidableEq

def Genesis.codec : Codec Genesis :=
  record "Genesis"
    (required "genesis_time" quoted <| required "genesis_validators_root" (fixed 32) <|
      required "genesis_fork_version" (fixed 4) .nil)
    (fun (time, validatorsRoot, forkVersion, _) => ⟨time, validatorsRoot, forkVersion⟩)
    (fun g => (g.time, g.validatorsRoot, g.forkVersion, ()))

/-- The parameters of the chain that are of use here. -/
structure ChainSpec where
  secondsPerSlot : UInt64
  slotsPerEpoch : UInt64
  depositContractAddress : Option Address
  depositNetworkId : Option String
  domainAggregateAndProof : Option String
  inactivityPenaltyQuotient : Option String
  inactivityPenaltyQuotientAltair : Option String
deriving DecidableEq

def ChainSpec.codec : Codec ChainSpec :=
  record "ChainSpec"
    (required "SECONDS_PER_SLOT" quoted <| required "SLOTS_PER_EPOCH" quoted <|
      nullable "DEPOSIT_CONTRACT_ADDRESS" (fixed 20) <| nullable "DEPOSIT_NETWORK_ID" text <|
      nullable "DOMAIN_AGGREGATE_AND_PROOF" text <| nullable "INACTIVITY_PENALTY_QUOTIENT" text <|
      nullable "INACTIVITY_PENALTY_QUOTIENT_ALTAIR" text .nil)
    (fun (secondsPerSlot, slotsPerEpoch, depositContractAddress, depositNetworkId,
        domainAggregateAndProof, inactivityPenaltyQuotient, inactivityPenaltyQuotientAltair, _) =>
      ⟨secondsPerSlot, slotsPerEpoch, depositContractAddress, depositNetworkId,
        domainAggregateAndProof, inactivityPenaltyQuotient, inactivityPenaltyQuotientAltair⟩)
    (fun s => (s.secondsPerSlot, s.slotsPerEpoch, s.depositContractAddress, s.depositNetworkId,
      s.domainAggregateAndProof, s.inactivityPenaltyQuotient, s.inactivityPenaltyQuotientAltair, ()))

structure Fork where
  previousVersion : ForkVersion
  currentVersion : ForkVersion
  epoch : UInt64
deriving DecidableEq

def Fork.codec : Codec Fork :=
  record "Fork"
    (required "previous_version" (fixed 4) <| required "current_version" (fixed 4) <|
      required "epoch" quoted .nil)
    (fun (previousVersion, currentVersion, epoch, _) => ⟨previousVersion, currentVersion, epoch⟩)
    (fun f => (f.previousVersion, f.currentVersion, f.epoch, ()))

structure RandaoInfo where
  randao : Hash
deriving DecidableEq

def RandaoInfo.codec : Codec RandaoInfo :=
  record "RandaoInfo" (required "randao" (fixed 32) .nil) (fun (r, _) => ⟨r⟩)
    (fun r => (r.randao, ()))

structure WithdrawalsInfo where
  withdrawals : List Withdrawal
deriving DecidableEq

def WithdrawalsInfo.codec : Codec WithdrawalsInfo :=
  record "WithdrawalsInfo" (required "withdrawals" (list Withdrawal.codec) .nil)
    (fun (w, _) => ⟨w⟩) (fun w => (w.withdrawals, ()))

end ChainHead
