import ChainHead.Client

/-! The operations of a client that ask for data, as values. Each of them asks for one resource, reads the data in its
envelope by one codec, and gives the data or a part of it. What the operations have in common is said once, about a
query. -/

namespace ChainHead

/-- The operations that ask for data, with their arguments. -/
inductive Accessor where
  | syncStatus
  | currentSlot
  | proposerDuties (epoch : UInt64)
  | header
  | headerForSlot (slot : UInt64)
  | block (id : BlockId)
  | blockForSlot (slot : UInt64)
  | genesis
  | spec
  | forkSchedule
  | randao (slot : UInt64)
  | withdrawals (slot : UInt64)
  | fetchValidators (slot : UInt64)
deriving DecidableEq

namespace Accessor

/-- What the envelope of the answer holds. -/
def Data : Accessor → Type
  | .syncStatus => SyncStatus
  | .currentSlot => SyncStatus
  | .proposerDuties _ => List ProposerDuty
  | .header => HeaderInfo
  | .headerForSlot _ => HeaderInfo
  | .block _ => Block
  | .blockForSlot _ => Block
  | .genesis => Genesis
  | .spec => ChainSpec
  | .forkSchedule => List Fork
  | .randao _ => RandaoInfo
  | .withdrawals _ => WithdrawalsInfo
  | .fetchValidators _ => List ValidatorEntry

def codec : (accessor : Accessor) → Wire.Codec accessor.Data
  | .syncStatus => SyncStatus.codec
  | .currentSlot => SyncStatus.codec
  | .proposerDuties _ => Wire.list ProposerDuty.codec
  | .header => HeaderInfo.codec
  | .headerForSlot _ => HeaderInfo.codec
  | .block _ => Block.codec
  | .blockForSlot _ => Block.codec
  | .genesis => Genesis.codec
  | .spec => ChainSpec.codec
  | .forkSchedule => Wire.list Fork.codec
  | .randao _ => RandaoInfo.codec
  | .withdrawals _ => WithdrawalsInfo.codec
  | .fetchValidators _ => Wire.list ValidatorEntry.codec

def Answer : Accessor → Type
  | .currentSlot => UInt64
  | .randao _ => Hash
  | .withdrawals _ => List Withdrawal
  | .fetchValidators _ => Snapshot
  | accessor => accessor.Data

/-- The part of the data that is given. -/
def project : (accessor : Accessor) → accessor.Data → accessor.Answer
  | .syncStatus => id
  | .currentSlot => SyncStatus.headSlot
  | .proposerDuties _ => id
  | .header => id
  | .headerForSlot _ => id
  | .block _ => id
  | .blockForSlot _ => id
  | .genesis => id
  | .spec => id
  | .forkSchedule => id
  | .randao _ => RandaoInfo.randao
  | .withdrawals _ => WithdrawalsInfo.withdrawals
  | .fetchValidators _ => Snapshot.ofRows

def endpoint : Accessor → Endpoint
  | .syncStatus => .syncing
  | .currentSlot => .syncing
  | .proposerDuties epoch => .proposerDuties epoch
  | .header => .headHeader
  | .headerForSlot slot => .header slot
  | .block id => .block id
  | .blockForSlot slot => .block (.slot slot)
  | .genesis => .genesis
  | .spec => .spec
  | .forkSchedule => .forkSchedule
  | .randao slot => .randao slot
  | .withdrawals slot => .withdrawals slot
  | .fetchValidators slot => .validators slot

/-- How long a client waits for the answer. -/
def timeout (c : Client) : Accessor → UInt64
  | .fetchValidators _ => c.validatorsTimeout
  | _ => c.requestTimeout

variable [Url.Idna]

/-- The operation of a client. -/
def ask (c : Client) : (accessor : Accessor) → Http.Network → Outcome accessor.Answer
  | .syncStatus => c.syncStatus
  | .currentSlot => c.currentSlot
  | .proposerDuties epoch => c.proposerDuties epoch
  | .header => c.header
  | .headerForSlot slot => c.headerForSlot slot
  | .block id => c.block id
  | .blockForSlot slot => c.blockForSlot slot
  | .genesis => c.genesis
  | .spec => c.spec
  | .forkSchedule => c.forkSchedule
  | .randao slot => c.randao slot
  | .withdrawals slot => c.withdrawals slot
  | .fetchValidators slot => c.fetchValidators slot

/-- The query of an operation. -/
def query (c : Client) (accessor : Accessor) : Http.Network → Outcome accessor.Data :=
  c.query (accessor.timeout c) accessor.endpoint accessor.codec

/-- Only the log depends on whether there is a snapshot. -/
theorem fetchValidators_eq (c : Client) (slot : UInt64) (network : Http.Network) {o : Outcome (List ValidatorEntry)}
    (ho : c.query c.validatorsTimeout (.validators slot) (Wire.list ValidatorEntry.codec) network = o) :
    (c.fetchValidators slot network).result = o.result.map Snapshot.ofRows ∧
      (c.fetchValidators slot network).requests = o.requests := by
  unfold Client.fetchValidators
  rw [ho]
  obtain ⟨result, requests, log, network⟩ := o
  cases result with
  | error fault => exact ⟨rfl, rfl⟩
  | ok rows => exact ⟨rfl, rfl⟩

/-- An operation gives what it takes from the data of its query. -/
theorem ask_eq_query (c : Client) (accessor : Accessor) (network : Http.Network) :
    (accessor.ask c network).result = (accessor.query c network).result.map accessor.project ∧
      (accessor.ask c network).requests = (accessor.query c network).requests := by
  have hwhole {α : Type} (o : Outcome α) : o.result = o.result.map id ∧ o.requests = o.requests :=
    ⟨(id_map o.result).symm, rfl⟩
  have hpart {α β : Type} (f : α → β) (o : Outcome α) :
      (o.map f).result = o.result.map f ∧ (o.map f).requests = o.requests := ⟨rfl, rfl⟩
  cases accessor with
  | currentSlot => exact hpart SyncStatus.headSlot (c.syncStatus network)
  | randao slot => exact hpart RandaoInfo.randao (c.ask (.randao slot) RandaoInfo.codec network)
  | withdrawals slot =>
      exact hpart WithdrawalsInfo.withdrawals (c.ask (.withdrawals slot) WithdrawalsInfo.codec network)
  | fetchValidators slot =>
      generalize ho : (fetchValidators slot).query c network = o
      exact fetchValidators_eq c slot network ho
  | syncStatus => exact hwhole (c.syncStatus network)
  | proposerDuties epoch => exact hwhole (c.proposerDuties epoch network)
  | header => exact hwhole (c.header network)
  | headerForSlot slot => exact hwhole (c.headerForSlot slot network)
  | block id => exact hwhole (c.block id network)
  | blockForSlot slot => exact hwhole (c.blockForSlot slot network)
  | genesis => exact hwhole (c.genesis network)
  | spec => exact hwhole (c.spec network)
  | forkSchedule => exact hwhole (c.forkSchedule network)

/-- If its resource has a URL, the query asks for it. -/
theorem query_eq_get {c : Client} {accessor : Accessor} {url : Url} (hurl : accessor.endpoint.url c.url = .ok url)
    (network : Http.Network) :
    accessor.query c network = Fetch.get (accessor.timeout c) url (enveloped accessor.codec) network := by
  rw [query, Client.query, hurl]

end Accessor

end ChainHead
