import ChainHead.Fetch

/-! What more time changes. An exchange that does not end because its time is over is the same in any longer time: its
requests, what it comes to, and the network behind it. So it is for everything that is fetched. -/

namespace ChainHead

variable [Url.Idna]

namespace Http

/-- Redirections share the time, so what is left of a longer time is longer behind each of them. -/
theorem exchange_of_le {left time longer : Nat} (h : time ≤ longer) (request : Request) (turns : List Turn)
    (hintime : (exchange left time request turns).outcome ≠ .error .timeout) :
    exchange left longer request turns = exchange left time request turns := by
  fun_induction exchange left time request turns generalizing longer with
  | case1 left time request hsent => rw [exchange, if_pos hsent]
  | case2 left time request hunsent => rw [exchange, if_neg hunsent]
  | case3 left time request turn rest hunsent => rw [exchange, if_pos hunsent]
  | case4 => exact absurd rfl hintime
  | case5 => exact absurd rfl hintime
  | case6 left time request turn rest hsent delay hdelay hdelayed hclosed =>
      have hlonger : ¬ longer < delay := fun hlate => hdelayed (Nat.lt_of_le_of_lt h hlate)
      simp [exchange, hsent, hdelay, hclosed, hlonger]
  | case7 left time request turn rest hsent delay hdelay hdelayed response hresponse hstays =>
      have hlonger : ¬ longer < delay := fun hlate => hdelayed (Nat.lt_of_le_of_lt h hlate)
      simp [exchange, hsent, hdelay, hresponse, hstays, hlonger]
  | case8 time request turn rest hsent delay hdelay hdelayed response hresponse next hnext =>
      have hlonger : ¬ longer < delay := fun hlate => hdelayed (Nat.lt_of_le_of_lt h hlate)
      simp [exchange, hsent, hdelay, hresponse, hnext, hlonger]
  | case9 left time request turn rest hsent delay hdelay hdelayed response hresponse next hnext hleft ih =>
      have hrest := ih (Nat.sub_le_sub_right h delay) hintime
      have hlonger : ¬ longer < delay := fun hlate => hdelayed (Nat.lt_of_le_of_lt h hlate)
      simp [exchange, hsent, hdelay, hresponse, hnext, hleft, hrest, hlonger]

theorem send_of_le {time longer : Nat} (h : time ≤ longer) (request : Request) (network : Network)
    (hintime : (send time request network).outcome ≠ .error .timeout) :
    send longer request network = send time request network := by
  cases network with
  | unreachable => rfl
  | reached turns => exact exchange_of_le h request turns hintime

end Http

/-- An operation failed because its time was over. -/
def Outcome.TimedOut {α : Type} (o : Outcome α) : Prop := o.result = .error (.transport .timeout)

open Http (Method Network)

variable {α β : Type} {time longer : UInt64}

theorem Fetch.call_of_le (h : time ≤ longer) (r : Http.Request) (read : Method → Http.Response → Except Error α)
    (network : Network) (hintime : ¬ (call time r read network).TimedOut) :
    call longer r read network = call time r read network := by
  have houtcome : (Http.send time.toNat r network).outcome ≠ .error .timeout := by
    intro hlate
    rw [Outcome.TimedOut, call, hlate] at hintime
    exact hintime rfl
  rw [call, call, Http.send_of_le (UInt64.le_iff_toNat_le.mp h) r network houtcome]

theorem Fetch.call_map (f : α → β) (r : Http.Request) (read : Method → Http.Response → Except Error α)
    (network : Network) : (call time r read network).map f =
      call time r (fun method response => (read method response).map f) network := by
  rw [call, call, Outcome.map]
  cases judge (Http.send time.toNat r network).outcome with
  | error fault => rfl
  | ok answer =>
      congr 1

namespace Fetcher

variable {f f' : Fetcher} {network : Network}

/-- To get something is to fetch it and to take no notice of the status. -/
theorem get_eq (f : Fetcher) (url : Url) (codec : Wire.Codec α) (network : Network) :
    f.get url codec network = Fetch.get f.timeout url codec network := by
  have hread : (fun method response => Except.map Prod.snd
      (do return (response.status, ← Fetch.decode codec method response))) = Fetch.decode codec := by
    funext method response
    cases Fetch.decode codec method response <;> rfl
  rw [get, fetch, Fetch.fetch, Fetch.call_map, hread]
  rfl

/-- A time of its own replaces the time of all, be it longer or shorter. -/
theorem getWithTimeout_eq_get (f : Fetcher) (url : Url) (timeout : UInt64) (codec : Wire.Codec α) (network : Network) :
    f.getWithTimeout url timeout codec network = (Fetcher.mk timeout).get url codec network := by
  rw [get_eq]
  rfl

/-- A fetcher obtains whatever another one does not fail to obtain in its time. -/
structure Outlasts (f' f : Fetcher) (network : Network) : Prop where
  fetch : ∀ (α β : Type) method url (sent : Wire.Codec β) body (codec : Wire.Codec α),
    ¬ (f.fetch method url sent body codec network).TimedOut →
      f'.fetch method url sent body codec network = f.fetch method url sent body codec network
  fetchStatus : ∀ (β : Type) method url (sent : Wire.Codec β) body,
    ¬ (f.fetchStatus method url sent body network).TimedOut →
      f'.fetchStatus method url sent body network = f.fetchStatus method url sent body network
  get : ∀ (α : Type) url (codec : Wire.Codec α), ¬ (f.get url codec network).TimedOut →
    f'.get url codec network = f.get url codec network
  post : ∀ (β : Type) url (sent : Wire.Codec β) body, ¬ (f.post url sent body network).TimedOut →
    f'.post url sent body network = f.post url sent body network

theorem outlasts_of_le (h : f.timeout ≤ f'.timeout) (network : Network) : f'.Outlasts f network where
  fetch _ _ _ _ _ _ _ hintime := Fetch.call_of_le h _ _ network hintime
  fetchStatus _ _ _ _ _ hintime := Fetch.call_of_le h _ _ network hintime
  get _ url codec hintime := by
    rw [get_eq] at hintime ⊢
    rw [get_eq]
    exact Fetch.call_of_le h _ _ network hintime
  post _ _ _ _ hintime := Fetch.call_of_le h _ _ network hintime

end Fetcher

end ChainHead
