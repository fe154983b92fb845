import ChainHead.Proofs.Client.Accessors
import ChainHead.Proofs.Http.Patience
import ChainHead.Proofs.Settings.Spellings

/-! The two times of a client. The one for the validator set counts for the validator set, and the one for a request for
everything else, and neither has any effect where the other one counts. More time changes only what failed for want of
it. The settings of a client are those of its document. -/

namespace ChainHead

variable {c c' : Client} {accessor : Accessor}

namespace Accessor

/-- The operations that share the time for a request. -/
def isOrdinary : Accessor → Bool
  | .fetchValidators _ => false
  | _ => true

theorem timeout_of_isOrdinary (h : accessor.isOrdinary = true) : accessor.timeout c = c.requestTimeout := by
  cases accessor with
  | fetchValidators slot => cases h
  | _ => rfl

end Accessor

section

variable [Url.Idna] {network : Http.Network} {α : Type}

namespace Client

variable {time longer : UInt64} {e : Endpoint} {codec : Wire.Codec α}

theorem query_of_le (hurl : c'.url = c.url) (h : time ≤ longer) (hintime : ¬ (c.query time e codec network).TimedOut) :
    c'.query longer e codec network = c.query time e codec network := by
  rw [query] at hintime
  rw [query, query, hurl]
  cases hresource : e.url c.url with
  | error fault => rfl
  | ok url =>
      rw [hresource] at hintime
      exact Fetch.call_of_le h _ _ network hintime

theorem fetchValidators_congr {slot : UInt64} (hname : c'.name = c.name)
    (h : c'.query c'.validatorsTimeout (.validators slot) (Wire.list ValidatorEntry.codec) network =
      c.query c.validatorsTimeout (.validators slot) (Wire.list ValidatorEntry.codec) network) :
    c'.fetchValidators slot network = c.fetchValidators slot network := by
  have hentry (s : Snapshot) : c'.validatorsEntry slot s = c.validatorsEntry slot s := by
    rw [validatorsEntry, hname, validatorsEntry]
  unfold fetchValidators
  rw [h]
  generalize c.query c.validatorsTimeout (.validators slot) (Wire.list ValidatorEntry.codec) network = o
  obtain ⟨result, requests, log, network⟩ := o
  cases result with
  | error fault => rfl
  | ok rows =>
      have hlog := congrArg (fun entry => log ++ [entry]) (hentry (Snapshot.ofRows rows))
      exact congrArg (fun log => Outcome.mk (.ok (Snapshot.ofRows rows)) requests log network) hlog

theorem publishBlock_of_le (hurl : c'.url = c.url) (h : c.requestTimeout ≤ c'.requestTimeout) (block : SignedBlock)
    (hintime : ¬ (c.publishBlock block network).TimedOut) :
    c'.publishBlock block network = c.publishBlock block network := by
  rw [publishBlock] at hintime
  rw [publishBlock, publishBlock, hurl]
  cases hresource : Endpoint.blocks.url c.url with
  | error fault => rfl
  | ok url =>
      rw [hresource] at hintime
      exact Fetch.call_of_le h _ _ network hintime

end Client

namespace Accessor

/-- A client asks through its fetcher, and brings a time of its own for the validator set only. -/
theorem query_eq_fetcher {url : Url} (hurl : accessor.endpoint.url c.url = .ok url) (network : Http.Network) :
    accessor.query c network =
      if accessor.isOrdinary then c.fetcher.get url (enveloped accessor.codec) network
      else c.fetcher.getWithTimeout url c.validatorsTimeout (enveloped accessor.codec) network := by
  rw [query_eq_get hurl]
  split_ifs with hordinary
  · rw [Fetcher.get_eq, timeout_of_isOrdinary hordinary, Client.fetcher]
  · cases accessor with
    | fetchValidators slot => rfl
    | _ => exact absurd rfl hordinary

theorem query_congr (hurl : c'.url = c.url) (htimeout : accessor.timeout c' = accessor.timeout c) :
    accessor.query c' network = accessor.query c network := by
  rw [query, query, Client.query, Client.query, hurl, htimeout]

/-- What an operation makes of its query depends on the name of the client only. -/
theorem ask_congr (hname : c'.name = c.name) (h : accessor.query c' network = accessor.query c network) :
    accessor.ask c' network = accessor.ask c network := by
  cases accessor with
  | currentSlot =>
      have hquery : c'.syncStatus network = c.syncStatus network := h
      exact congrArg (Outcome.map SyncStatus.headSlot) hquery
  | randao slot =>
      have hquery : c'.ask (.randao slot) RandaoInfo.codec network = c.ask (.randao slot) RandaoInfo.codec network := h
      exact congrArg (Outcome.map RandaoInfo.randao) hquery
  | withdrawals slot =>
      have hquery : c'.ask (.withdrawals slot) WithdrawalsInfo.codec network =
        c.ask (.withdrawals slot) WithdrawalsInfo.codec network := h
      exact congrArg (Outcome.map WithdrawalsInfo.withdrawals) hquery
  | fetchValidators slot =>
      have hfetched : c'.fetchValidators slot network = c.fetchValidators slot network :=
        Client.fetchValidators_congr hname h
      exact hfetched
  | _ => exact h

theorem timedOut_ask_iff : (accessor.ask c network).TimedOut ↔ (accessor.query c network).TimedOut := by
  rw [Outcome.TimedOut, (ask_eq_query c accessor network).1, Outcome.TimedOut]
  cases (accessor.query c network).result <;> simp [Except.map]

theorem ask_of_le (hname : c'.name = c.name) (hurl : c'.url = c.url) (h : accessor.timeout c ≤ accessor.timeout c')
    (hintime : ¬ (accessor.ask c network).TimedOut) : accessor.ask c' network = accessor.ask c network :=
  ask_congr hname (Client.query_of_le hurl h (mt timedOut_ask_iff.mpr hintime))

end Accessor

/-- The times of a client that is made from settings are those that are written in their document. -/
theorem Client.ofSettings_timeouts {t : String} {s : Settings} (h : Settings.ofText t = .ok s) :
    ∃ d, Toml.Document.read t = .ok d ∧
      Settings.Given 5000 (Settings.Written.of d.entries).request (ofSettings s).requestTimeout ∧
      Settings.Given 60000 (Settings.Written.of d.entries).validators (ofSettings s).validatorsTimeout ∧
      Settings.Given 1000 (Settings.Written.of d.entries).reconnect (ofSettings s).reconnectDelay := by
  obtain ⟨d, hread, hdecodes⟩ := Settings.exists_decodes h
  exact ⟨d, hread, hdecodes.request, hdecodes.validators, hdecodes.reconnect⟩

/-- What two clients of the same name and base URL have in common. The validator set depends on the time for the
validator set only, everything else on the time for a request only, and a longer time changes nothing but failures for
want of it. -/
structure Client.Alike (c c' : Client) (network : Http.Network) : Prop where
  validators : c'.validatorsTimeout = c.validatorsTimeout →
    ∀ slot, c'.fetchValidators slot network = c.fetchValidators slot network
  ordinary : c'.requestTimeout = c.requestTimeout →
    (∀ accessor : Accessor, accessor.isOrdinary = true → accessor.ask c' network = accessor.ask c network) ∧
      ∀ block, c'.publishBlock block network = c.publishBlock block network
  longer : ∀ accessor : Accessor, accessor.timeout c ≤ accessor.timeout c' →
    ¬ (accessor.ask c network).TimedOut → accessor.ask c' network = accessor.ask c network
  longerPublication : c.requestTimeout ≤ c'.requestTimeout → ∀ block,
    ¬ (c.publishBlock block network).TimedOut → c'.publishBlock block network = c.publishBlock block network

theorem Client.alike (hname : c'.name = c.name) (hurl : c'.url = c.url) (network : Http.Network) :
    c.Alike c' network where
  validators htimeout slot := by
    have hask : (Accessor.fetchValidators slot).ask c' network = (Accessor.fetchValidators slot).ask c network :=
      Accessor.ask_congr hname (Accessor.query_congr hurl htimeout)
    exact hask
  ordinary htimeout := by
    refine ⟨fun accessor hordinary => Accessor.ask_congr hname (Accessor.query_congr hurl ?_), fun block => ?_⟩
    · rw [Accessor.timeout_of_isOrdinary hordinary, Accessor.timeout_of_isOrdinary hordinary, htimeout]
    · rw [publishBlock, publishBlock, hurl, htimeout]
  longer accessor h hintime := Accessor.ask_of_le hname hurl h hintime
  longerPublication h block hintime := publishBlock_of_le hurl h block hintime

/-- The two times of a client do not interfere, however the network delays its answers and however the client came to
be. A client sends through its fetcher, and only the validator set has a time of its own. A time of its own replaces
that of a fetcher, and a longer time keeps everything but failures for want of it. A client made from settings is one
that is made from its parts, with the times of the document. -/
theorem timeouts_do_not_interfere (network : Http.Network) :
    (∀ c c' : Client, c'.name = c.name → c'.url = c.url → c.Alike c' network) ∧
    (∀ (c : Client) (accessor : Accessor) url, accessor.endpoint.url c.url = .ok url → accessor.query c network =
      if accessor.isOrdinary then c.fetcher.get url (enveloped accessor.codec) network
      else c.fetcher.getWithTimeout url c.validatorsTimeout (enveloped accessor.codec) network) ∧
    (∀ (α : Type) (f : Fetcher) url time (codec : Wire.Codec α),
      f.getWithTimeout url time codec network = (Fetcher.mk time).get url codec network) ∧
    (∀ f f' : Fetcher, f.timeout ≤ f'.timeout → f'.Outlasts f network) ∧
    ∀ t s, Settings.ofText t = .ok s →
      Client.ofSettings s = ((Client.ofUrl s.node.name s.node.url s.requestTimeout).withValidatorsTimeout
        s.validatorsTimeout).withReconnectDelay s.reconnectDelay ∧
      ∃ d, Toml.Document.read t = .ok d ∧
        Settings.Given 5000 (Settings.Written.of d.entries).request (Client.ofSettings s).requestTimeout ∧
        Settings.Given 60000 (Settings.Written.of d.entries).validators (Client.ofSettings s).validatorsTimeout ∧
        Settings.Given 1000 (Settings.Written.of d.entries).reconnect (Client.ofSettings s).reconnectDelay :=
  ⟨fun _ _ hname hurl => Client.alike hname hurl network, fun _ _ _ hurl => Accessor.query_eq_fetcher hurl network,
    fun _ f url time codec => f.getWithTimeout_eq_get url time codec network,
    fun _ _ h => Fetcher.outlasts_of_le h network, fun _ _ h => ⟨rfl, Client.ofSettings_timeouts h⟩⟩

end

/-- An answer that takes its time, with no data in it. -/
def slowAnswer : Http.Network :=
  .reached [{ delay := some 400, response := some { status := 200, body := Utf8.encode "\x7b\"data\":[]\x7d".toList } }]

section

open scoped Url.Idna

/-- A client that waits less for everything else obtains the validator set all the same, and with more time the rest. -/
theorem timeouts_do_not_interfere_slowly :
    let hasty := Client.ofUrl "lighthouse" NodeSettings.lighthouse.url 100
    let patient := Client.ofUrl "lighthouse" NodeSettings.lighthouse.url 500
    (patient.fetchValidators 7 slowAnswer).result.isOk = true ∧
      hasty.fetchValidators 7 slowAnswer = patient.fetchValidators 7 slowAnswer ∧
      (hasty.forkSchedule slowAnswer).TimedOut ∧ (patient.forkSchedule slowAnswer).result = .ok [] ∧
      ∀ c : Client, c.name = patient.name → c.url = patient.url → 500 ≤ c.requestTimeout →
        c.forkSchedule slowAnswer = patient.forkSchedule slowAnswer := by
  intro hasty patient
  have hschedule : (patient.forkSchedule slowAnswer).result = .ok [] := by decide +kernel
  have hlate : (hasty.forkSchedule slowAnswer).TimedOut := by
    rw [Outcome.TimedOut]
    decide +kernel
  have halike := (timeouts_do_not_interfere slowAnswer).1
  refine ⟨by decide +kernel, (halike patient hasty rfl rfl).validators rfl 7, hlate, hschedule,
    fun c hname hurl hlonger => (halike patient c hname hurl).longer .forkSchedule hlonger fun hfailed => ?_⟩
  cases hschedule.symm.trans hfailed

end

end ChainHead
