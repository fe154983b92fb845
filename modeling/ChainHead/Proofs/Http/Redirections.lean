import ChainHead.Http.Exchange
import Mathlib.Tactic.SplitIfs

/-! Where redirections lead. Some of them ask for the same request at another place. The others ask for content
only, and a request that was sent on by one of these has lost its body and has become one for content, whatever
follows. So the last request of an exchange is what the first one was exactly if all redirections on the way ask
for the same. -/

namespace ChainHead.Http

theorem redirection?_eq_true_iff {status : Nat} :
    redirection? status = some true ↔ status = 307 ∨ status = 308 := by
  rw [redirection?]
  split_ifs with hcontent hwhole
  · simp only [Option.some.injEq, Bool.false_eq_true, false_iff]
    omega
  · simp only [hwhole]
  · simp only [hwhole]

theorem redirection?_eq_false_iff {status : Nat} :
    redirection? status = some false ↔ status = 301 ∨ status = 302 ∨ status = 303 := by
  rw [redirection?]
  split_ifs with hcontent hwhole
  · simp only [hcontent]
  · simp only [hcontent, Option.some.injEq, Bool.true_eq_false]
  · simp only [hcontent]

variable [Url.Idna]

/-- A request leads to another one, by requests each of which is sent on by its response. -/
inductive Leads : Request → List (Request × Response) → Request → Prop
  | here (request : Request) : Leads request [] request
  | on {request next last : Request} {response : Response} {hops : List (Request × Response)}
      (hredirected : redirected? request response = some next) (hleads : Leads next hops last) :
      Leads request ((request, response) :: hops) last

/-- What a redirection can change of a request, but for its place. -/
def Request.form (r : Request) : Method × Option String × Option String := (r.method, r.body, r.contentType)

variable {request next last : Request} {response : Response} {hops : List (Request × Response)}

/-- A redirection keeps the form of a request, or nothing of it but that it asks for content. -/
theorem form_of_redirected? (h : redirected? request response = some next) :
    ∃ whole, redirection? response.status = some whole ∧
      next.form = if whole then request.form else (if request.method = .head then .head else .get, none, none) := by
  simp only [redirected?, Option.bind_eq_bind, Option.bind_eq_some_iff, Option.pure_def] at h
  obtain ⟨whole, hwhole, location, -, place, -, h⟩ := h
  refine ⟨whole, hwhole, ?_⟩
  by_cases hplace : (!(Target.ofUrl place).isOk) = true
  · rw [if_pos hplace] at h
    cases h
  · rw [if_neg hplace, Option.some.injEq] at h
    subst h
    cases whole <;> rfl

namespace Leads

theorem isSome_redirection? (h : Leads request hops last) :
    ∀ hop ∈ hops, (redirection? hop.2.status).isSome = true := by
  induction h with
  | here => simp
  | on hredirected _ ih =>
      obtain ⟨whole, hwhole, -⟩ := form_of_redirected? hredirected
      rw [List.forall_mem_cons, hwhole]
      exact ⟨rfl, ih⟩

theorem form_eq_of_whole (h : Leads request hops last)
    (hwhole : ∀ hop ∈ hops, redirection? hop.2.status = some true) : last.form = request.form := by
  induction h with
  | here => rfl
  | on hredirected _ ih =>
      obtain ⟨hfirst, hrest⟩ := List.forall_mem_cons.mp hwhole
      obtain ⟨whole, hstatus, hform⟩ := form_of_redirected? hredirected
      obtain rfl : whole = true := Option.some.inj (hstatus.symm.trans hfirst)
      rw [ih hrest, hform, if_pos rfl]

/-- A request for content stays one. -/
theorem form_eq_get (h : Leads request hops last) (hform : request.form = (.get, none, none)) :
    last.form = (.get, none, none) := by
  induction h with
  | here => exact hform
  | @on request next last response hops hredirected _ ih =>
      apply ih
      obtain ⟨whole, -, hnext⟩ := form_of_redirected? hredirected
      have hmethod : request.method = .get := congrArg Prod.fst hform
      rw [hnext, hform, hmethod]
      cases whole <;> rfl

theorem form_eq_get_of_mem (h : Leads request hops last) (hmethod : request.method ≠ .head)
    {hop : Request × Response} (hmem : hop ∈ hops) (hcontent : redirection? hop.2.status = some false) :
    last.form = (.get, none, none) := by
  induction h with
  | here => cases hmem
  | @on request next last response hops hredirected hleads ih =>
      obtain ⟨whole, hstatus, hnext⟩ := form_of_redirected? hredirected
      cases whole with
      | false =>
          apply hleads.form_eq_get
          rw [hnext, if_neg hmethod]
          rfl
      | true =>
          rcases List.mem_cons.mp hmem with rfl | hmem
          · rw [hstatus] at hcontent
            cases hcontent
          · refine ih ?_ hmem
            have hkept : next.method = request.method := congrArg Prod.fst hnext
            rwa [hkept]

/-- The last request is what the first one was exactly if all redirections ask for the same. -/
theorem form_eq_iff (h : Leads request hops last) (hmethod : request.method ≠ .head)
    (hform : request.form ≠ (.get, none, none)) :
    last.form = request.form ↔ ∀ hop ∈ hops, redirection? hop.2.status = some true := by
  refine ⟨fun hkept hop hmem => ?_, h.form_eq_of_whole⟩
  obtain ⟨whole, hstatus⟩ := Option.isSome_iff_exists.mp (h.isSome_redirection? hop hmem)
  cases whole with
  | true => exact hstatus
  | false => exact absurd (hkept.symm.trans (h.form_eq_get_of_mem hmethod hmem hstatus)) hform

end Leads

/-! ### Exchanges -/

variable {method : Method}

/-- A response that an exchange comes to is the response to the last of its requests, to which the first one leads
by the redirections on the way. Each response was given in its turn. -/
theorem leads_of_exchange {left budget : Nat} {turns : List Turn}
    (h : (exchange left budget request turns).outcome = .ok (method, response)) :
    ∃ hops last, Leads request hops last ∧ hops.length ≤ left ∧ last.method = method ∧
      redirected? last response = none ∧
      (exchange left budget request turns).requests = hops.map Prod.fst ++ [last] ∧
      hops.map (some ·.2) ++ [some response] <+: turns.map Turn.response := by
  fun_induction exchange left budget request turns with
  | case7 left budget request turn rest _ _ _ _ answer hanswer hstays =>
      cases h
      refine ⟨[], request, .here request, Nat.zero_le _, rfl, hstays, rfl, ?_⟩
      rw [List.map_cons, hanswer]
      exact ⟨rest.map Turn.response, rfl⟩
  | case9 left budget request turn rest _ _ _ _ answer hanswer next hnext hleft ih =>
      obtain ⟨hops, last, hleads, hlength, hmethod, hstays, hrequests, hturns⟩ := ih h
      refine ⟨(request, answer) :: hops, last, .on hnext hleads, ?_, hmethod, hstays, ?_, ?_⟩
      · rw [List.length_cons]
        omega
      · rw [Exchange.after, hrequests]
        rfl
      · rw [List.map_cons, List.map_cons, hanswer]
        exact List.cons_prefix_cons.mpr ⟨rfl, hturns⟩
  | _ => cases h

theorem leads_of_send {timeout : Nat} {network : Network}
    (h : (send timeout request network).outcome = .ok (method, response)) :
    ∃ turns hops last, network = .reached turns ∧ Leads request hops last ∧ hops.length ≤ redirectLimit ∧
      last.method = method ∧ redirected? last response = none ∧
      (send timeout request network).requests = hops.map Prod.fst ++ [last] ∧
      hops.map (some ·.2) ++ [some response] <+: turns.map Turn.response := by
  cases network with
  | unreachable => cases h
  | reached turns =>
      obtain ⟨hops, last, hexchange⟩ := leads_of_exchange h
      exact ⟨turns, hops, last, rfl, hexchange⟩

end ChainHead.Http
