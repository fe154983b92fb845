import ChainHead.Proofs.Http.Redirections

/-! What a request comes to, said by what its network does and not by how the exchange is run. Redirections are
followed as long as responses come in time and ask for requests that can be made. What remains when none is left to
follow decides: a response that stays, a redirection too many, a turn that is late or closes the connection, or a
request that can not be made. -/

namespace ChainHead.Http

/-- A turn responds within a time. -/
def Turn.RespondsIn (turn : Turn) (time : Nat) (response : Response) : Prop :=
  ∃ delay, turn.delay = some delay ∧ delay ≤ time ∧ turn.response = some response

/-- The time that is left behind a turn. -/
def Turn.timeLeft (turn : Turn) (time : Nat) : Nat := time - turn.delay.getD 0

variable [Url.Idna]

/-- Redirections lead from a request, a time to wait and turns to a number of hops later. -/
inductive Followed : Request → Nat → List Turn → Nat → Request → Nat → List Turn → Prop
  | none (request : Request) (time : Nat) (turns : List Turn) : Followed request time turns 0 request time turns
  | hop {request next last : Request} {time left hops : Nat} {turn : Turn} {turns rest : List Turn}
      {response : Response} (hsent : isRequestable request.url = true) (hresponds : turn.RespondsIn time response)
      (hredirected : redirected? request response = some next)
      (hmore : Followed next (turn.timeLeft time) turns hops last left rest) :
      Followed request time (turn :: turns) (hops + 1) last left rest

/-- What a request comes to if so many redirections are allowed. -/
inductive Comes (limit time : Nat) (request : Request) (turns : List Turn) :
    Except Transport (Method × Response) → Prop
  | response {hops left : Nat} {last : Request} {turn : Turn} {rest : List Turn} {response : Response}
      (hfollowed : Followed request time turns hops last left (turn :: rest)) (hhops : hops ≤ limit)
      (hsent : isRequestable last.url = true) (hresponds : turn.RespondsIn left response)
      (hstays : redirected? last response = none) : Comes limit time request turns (.ok (last.method, response))
  | tooMany {left : Nat} {last next : Request} {turn : Turn} {rest : List Turn} {response : Response}
      (hfollowed : Followed request time turns limit last left (turn :: rest))
      (hsent : isRequestable last.url = true) (hresponds : turn.RespondsIn left response)
      (hredirected : redirected? last response = some next) : Comes limit time request turns (.error .redirect)
  | late {hops left : Nat} {last : Request} {turn : Turn} {rest : List Turn}
      (hfollowed : Followed request time turns hops last left (turn :: rest)) (hhops : hops ≤ limit)
      (hsent : isRequestable last.url = true) (hlate : ∀ delay, turn.delay = some delay → left < delay) :
      Comes limit time request turns (.error .timeout)
  | closed {hops left delay : Nat} {last : Request} {turn : Turn} {rest : List Turn}
      (hfollowed : Followed request time turns hops last left (turn :: rest)) (hhops : hops ≤ limit)
      (hsent : isRequestable last.url = true) (hdelay : turn.delay = some delay) (hintime : delay ≤ left)
      (hclosed : turn.response = none) : Comes limit time request turns (.error .other)
  | spent {hops left : Nat} {last : Request} (hfollowed : Followed request time turns hops last left [])
      (hhops : hops ≤ limit) (hsent : isRequestable last.url = true) : Comes limit time request turns (.error .other)
  | unsent {hops left : Nat} {last : Request} {rest : List Turn}
      (hfollowed : Followed request time turns hops last left rest) (hhops : hops ≤ limit)
      (hunsent : isRequestable last.url = false) : Comes limit time request turns (.error .builder)

variable {limit time : Nat} {request next : Request} {turn : Turn} {turns : List Turn} {response : Response}
  {outcome : Except Transport (Method × Response)}

/-- A redirection more in front. -/
theorem Comes.hop (hsent : isRequestable request.url = true) (hresponds : turn.RespondsIn time response)
    (hredirected : redirected? request response = some next)
    (h : Comes limit (turn.timeLeft time) next turns outcome) :
    Comes (limit + 1) time request (turn :: turns) outcome := by
  cases h with
  | response hfollowed hhops hlast hin hstays =>
      exact .response (.hop hsent hresponds hredirected hfollowed) (Nat.succ_le_succ hhops) hlast hin hstays
  | tooMany hfollowed hlast hin hagain => exact .tooMany (.hop hsent hresponds hredirected hfollowed) hlast hin hagain
  | late hfollowed hhops hlast hlate =>
      exact .late (.hop hsent hresponds hredirected hfollowed) (Nat.succ_le_succ hhops) hlast hlate
  | closed hfollowed hhops hlast hdelay hintime hclosed =>
      exact .closed (.hop hsent hresponds hredirected hfollowed) (Nat.succ_le_succ hhops) hlast hdelay hintime hclosed
  | spent hfollowed hhops hlast =>
      exact .spent (.hop hsent hresponds hredirected hfollowed) (Nat.succ_le_succ hhops) hlast
  | unsent hfollowed hhops hunsent =>
      exact .unsent (.hop hsent hresponds hredirected hfollowed) (Nat.succ_le_succ hhops) hunsent

/-- An exchange comes to what its network makes of it. -/
theorem comes_exchange (limit time : Nat) (request : Request) (turns : List Turn) :
    Comes limit time request turns (exchange limit time request turns).outcome := by
  fun_induction exchange limit time request turns with
  | case1 limit time request hsent => exact .spent (.none ..) (Nat.zero_le _) hsent
  | case2 limit time request hunsent => exact .unsent (.none ..) (Nat.zero_le _) (by simpa using hunsent)
  | case3 limit time request turn rest hunsent => exact .unsent (.none ..) (Nat.zero_le _) (by simpa using hunsent)
  | case4 limit time request turn rest hsent hdelay =>
      exact .late (.none ..) (Nat.zero_le _) (by simpa using hsent) fun delay h => by rw [hdelay] at h; cases h
  | case5 limit time request turn rest hsent delay hdelay hlate =>
      refine .late (.none ..) (Nat.zero_le _) (by simpa using hsent) fun delay h => ?_
      rw [hdelay] at h
      cases h
      exact hlate
  | case6 limit time request turn rest hsent delay hdelay hintime hclosed =>
      exact .closed (.none ..) (Nat.zero_le _) (by simpa using hsent) hdelay (Nat.not_lt.mp hintime) hclosed
  | case7 limit time request turn rest hsent delay hdelay hintime response hresponse hstays =>
      exact .response (.none ..) (Nat.zero_le _) (by simpa using hsent)
        ⟨delay, hdelay, Nat.not_lt.mp hintime, hresponse⟩ hstays
  | case8 time request turn rest hsent delay hdelay hintime response hresponse next hnext =>
      exact .tooMany (.none ..) (by simpa using hsent) ⟨delay, hdelay, Nat.not_lt.mp hintime, hresponse⟩ hnext
  | case9 limit time request turn rest hsent delay hdelay hintime response hresponse next hnext hlimit ih =>
      obtain ⟨inner, rfl⟩ : ∃ inner, limit = inner + 1 := ⟨limit - 1, by omega⟩
      have hleft : turn.timeLeft time = time - delay := by rw [Turn.timeLeft, hdelay, Option.getD_some]
      exact .hop (by simpa using hsent) ⟨delay, hdelay, Nat.not_lt.mp hintime, hresponse⟩ hnext (hleft ▸ ih)

/-- An exchange goes on where a redirection leads. -/
theorem outcome_hop (hsent : isRequestable request.url = true) (hresponds : turn.RespondsIn time response)
    (hredirected : redirected? request response = some next) :
    (exchange (limit + 1) time request (turn :: turns)).outcome =
      (exchange limit (turn.timeLeft time) next turns).outcome := by
  obtain ⟨delay, hdelay, hintime, hresponse⟩ := hresponds
  have hleft : turn.timeLeft time = time - delay := by rw [Turn.timeLeft, hdelay, Option.getD_some]
  rw [exchange, hdelay, hresponse, hleft]
  simp only [hsent, hredirected, Nat.not_lt.mpr hintime, Bool.not_true, Bool.false_eq_true, if_false,
    Nat.add_one_ne_zero]
  rfl

theorem outcome_of_followed {hops left : Nat} {last : Request} {rest : List Turn}
    (h : Followed request time turns hops last left rest) (hhops : hops ≤ limit) :
    (exchange limit time request turns).outcome = (exchange (limit - hops) left last rest).outcome := by
  induction h generalizing limit with
  | none => rfl
  | hop hsent hresponds hredirected _ ih =>
      obtain ⟨inner, rfl⟩ : ∃ inner, limit = inner + 1 := ⟨limit - 1, by omega⟩
      rw [outcome_hop hsent hresponds hredirected, ih (Nat.le_of_succ_le_succ hhops), Nat.add_sub_add_right]

/-- What a request comes to is all that its network makes of it, and nothing else. -/
theorem outcome_exchange_iff : (exchange limit time request turns).outcome = outcome ↔
    Comes limit time request turns outcome := by
  refine ⟨fun h => h ▸ comes_exchange limit time request turns, fun h => ?_⟩
  cases h with
  | response hfollowed hhops hsent hresponds hstays =>
      obtain ⟨delay, hdelay, hintime, hresponse⟩ := hresponds
      rw [outcome_of_followed hfollowed hhops, exchange, hdelay, hresponse]
      simp [hsent, hstays, Nat.not_lt.mpr hintime]
  | tooMany hfollowed hsent hresponds hredirected =>
      obtain ⟨delay, hdelay, hintime, hresponse⟩ := hresponds
      rw [outcome_of_followed hfollowed (Nat.le_refl _), exchange, hdelay, hresponse]
      simp [hsent, hredirected, Nat.not_lt.mpr hintime]
  | @late _ _ _ turn _ hfollowed hhops hsent hlate =>
      rw [outcome_of_followed hfollowed hhops, exchange]
      cases hdelay : turn.delay with
      | none => simp [hsent]
      | some delay => simp [hsent, hlate delay hdelay]
  | closed hfollowed hhops hsent hdelay hintime hclosed =>
      rw [outcome_of_followed hfollowed hhops, exchange, hdelay, hclosed]
      simp [hsent, Nat.not_lt.mpr hintime]
  | spent hfollowed hhops hsent =>
      rw [outcome_of_followed hfollowed hhops, exchange, if_pos hsent]
  | @unsent _ _ _ rest hfollowed hhops hunsent =>
      rw [outcome_of_followed hfollowed hhops]
      cases rest with
      | nil => simp [exchange, hunsent]
      | cons turn rest => simp [exchange, hunsent]

/-- What a request comes to in a network, if it may take so much time and ten redirections. -/
def ComesFrom (time : Nat) (request : Request) : Network → Except Transport (Method × Response) → Prop
  | .unreachable, outcome => outcome = .error (if isRequestable request.url then .other else .builder)
  | .reached turns, outcome => Comes 10 time request turns outcome

theorem outcome_send_iff {network : Network} :
    (send time request network).outcome = outcome ↔ ComesFrom time request network outcome := by
  cases network with
  | unreachable => exact eq_comm
  | reached turns => exact outcome_exchange_iff

/-- The response to a request for content is the response to one. -/
theorem method_eq_get {network : Network} {method : Method} (hform : request.form = (.get, none, none))
    (h : (send time request network).outcome = .ok (method, response)) : method = .get := by
  obtain ⟨turns, hops, last, -, hleads, -, rfl, -⟩ := leads_of_send h
  exact congrArg Prod.fst (hleads.form_eq_get hform)

end ChainHead.Http
