import ChainHead.Client
import ChainHead.Proofs.Http.Redirections
import Mathlib.Data.List.Basic

/-! What the status of a published block is about. It is the status of the response to the last request, which need
not be the one that handed the block in: a redirection that asks for content only drops the block, and the success
behind it says nothing about it. It does say that the block was handed in as long as every redirection on the way
asks for the same request. -/

namespace ChainHead

namespace Fetch

/-- A call gives what is read of a successful response. -/
theorem response_of_call [Url.Idna] {α : Type} {timeout : UInt64} {r : Http.Request}
    {read : Http.Method → Http.Response → Except Error α} {network : Http.Network} {a : α}
    (h : (call timeout r read network).result = .ok a) :
    ∃ method response, (Http.send timeout.toNat r network).outcome = .ok (method, response) ∧
      Http.isSuccess response.status = true ∧ read method response = .ok a := by
  simp only [call] at h
  cases houtcome : (Http.send timeout.toNat r network).outcome with
  | error fault =>
      rw [houtcome] at h
      cases h
  | ok answer =>
      obtain ⟨method, response⟩ := answer
      rw [houtcome, judge] at h
      split_ifs at h with hsuccess
      · exact ⟨method, response, rfl, hsuccess, h⟩
      · cases h

end Fetch

namespace Client

/-- The JSON of a block. -/
def blockText (block : SignedBlock) : String := String.ofList (SignedBlock.codec.write block)

/-- The request that hands a block in. -/
def handIn (url : Url) (block : SignedBlock) : Http.Request := Fetch.request .post url (some (blockText block))

theorem publishBlock_eq [Url.Idna] {c : Client} {url : Url} (hurl : Endpoint.blocks.url c.url = .ok url)
    (block : SignedBlock) :
    c.publishBlock block =
      Fetch.call c.requestTimeout (handIn url block) fun _ response => .ok response.status := by
  funext network
  rw [publishBlock, hurl]
  rfl

/-- If a block is published with a status, this is the status of the response to the last request. The block was
handed in with the first one, which leads to the last one by the redirections on the way, ten at most. The last
request hands the block in, too, exactly if each redirection has the status 307 or 308; if one of them has
another status, it asks for content and carries nothing. -/
theorem posted_iff_redirections_keep [Url.Idna] (c : Client) (block : SignedBlock) (network : Http.Network)
    (status : Nat) (h : (c.publishBlock block network).result = .ok status) :
    ∃ url turns hops last response,
      Endpoint.blocks.url c.url = .ok url ∧ network = .reached turns ∧ Http.Leads (handIn url block) hops last ∧
        hops.length ≤ 10 ∧ (c.publishBlock block network).requests = hops.map Prod.fst ++ [last] ∧
        hops.map (some ·.2) ++ [some response] <+: turns.map Http.Turn.response ∧
        response.status = status ∧ (200 ≤ status ∧ status < 300) ∧
        ((last.method = .post ∧ last.body = some (blockText block) ∧ last.contentType = some "application/json") ↔
          ∀ hop ∈ hops, hop.2.status = 307 ∨ hop.2.status = 308) ∧
        ((∃ hop ∈ hops, hop.2.status = 301 ∨ hop.2.status = 302 ∨ hop.2.status = 303) →
          last.method = .get ∧ last.body = none ∧ last.contentType = none) := by
  cases hurl : Endpoint.blocks.url c.url with
  | error fault =>
      rw [publishBlock, hurl] at h
      cases h
  | ok url =>
      rw [publishBlock_eq hurl] at h ⊢
      obtain ⟨method, response, houtcome, hsuccess, hstatus⟩ := Fetch.response_of_call h
      obtain rfl : response.status = status := Except.ok.inj hstatus
      obtain ⟨turns, hops, last, hnetwork, hleads, hlength, -, -, hrequests, hturns⟩ := Http.leads_of_send houtcome
      have hmethod : (handIn url block).method ≠ .head := nofun
      have hform : (handIn url block).form ≠ (.get, none, none) := nofun
      have hparts (form : Http.Method × Option String × Option String) :
          last.form = form ↔ last.method = form.1 ∧ last.body = form.2.1 ∧ last.contentType = form.2.2 := by
        rw [Prod.ext_iff, Prod.ext_iff]
        rfl
      refine ⟨url, turns, hops, last, response, rfl, hnetwork, hleads, hlength, hrequests, hturns, rfl, ?_, ?_, ?_⟩
      · simpa [Http.isSuccess] using hsuccess
      · simp only [← Http.redirection?_eq_true_iff]
        rw [← hleads.form_eq_iff hmethod hform]
        exact (hparts (handIn url block).form).symm
      · rintro ⟨hop, hmem, hcontent⟩
        exact (hparts _).mp (hleads.form_eq_get_of_mem hmethod hmem (Http.redirection?_eq_false_iff.mpr hcontent))

/-- A client of a node on the same machine. -/
def atLocalhost : Client :=
  .ofUrl "lighthouse" ⟨"http", .divided (some { host := .name "localhost", port := some 5052 }) [""], none, none⟩ 5000

/-- A block with one member in its body. -/
def sampleBlock : SignedBlock where
  message :=
    { slot := 12
      proposerIndex := 3
      parentRoot := .replicate 32 0x61
      stateRoot := .replicate 32 0x62
      body := .record [("graffiti", .text "0x63")] }
  signature := List.replicate 96 0xaa

/-- The responses of a node that sends the first request elsewhere, and takes the second one. -/
def elsewhere (status : Nat) : List Http.Response :=
  [{ status, fields := [("location", "/done")] }, { status := 202 }]

def redirecting (status : Nat) : Http.Network := .reached ((elsewhere status).map fun r => { response := some r })

section

open scoped Url.Idna

theorem posted_iff_redirections_keep_temporarily :
    (atLocalhost.publishBlock sampleBlock (redirecting 307)).result = .ok 202 ∧
      ∃ first last, (atLocalhost.publishBlock sampleBlock (redirecting 307)).requests = [first, last] ∧
        last.method = .post ∧ last.body = some (blockText sampleBlock) := by
  have hresult : (atLocalhost.publishBlock sampleBlock (redirecting 307)).result = .ok 202 := by decide +kernel
  obtain ⟨url, turns, hops, last, response, -, hnetwork, -, -, hrequests, hturns, hstatus, -, hkept, -⟩ :=
    posted_iff_redirections_keep atLocalhost sampleBlock (redirecting 307) 202 hresult
  obtain rfl : turns = _ := (Http.Network.reached.inj hnetwork).symm
  refine ⟨hresult, ?_⟩
  -- the first response has another status, so it belongs to a redirection, and the second one is the last
  rcases hops with _ | ⟨⟨first, answer⟩, _ | ⟨hop, more⟩⟩
  · obtain ⟨hfirst, -⟩ := List.cons_prefix_cons.mp hturns
    cases hfirst
    cases hstatus
  · obtain ⟨hfirst, -⟩ := List.cons_prefix_cons.mp hturns
    cases hfirst
    obtain ⟨hpost, hbody, -⟩ := hkept.mpr (List.forall_mem_singleton.mpr (.inl rfl))
    exact ⟨first, last, hrequests, hpost, hbody⟩
  · have hlength := hturns.length_le
    simp [elsewhere] at hlength

/-- A block is published with success though the request that succeeds asks for content and carries no block. -/
theorem redirected_block_is_dropped :
    (atLocalhost.publishBlock sampleBlock (redirecting 303)).result = .ok 202 ∧
      (atLocalhost.publishBlock sampleBlock (redirecting 303)).requests.getLast?.map (fun r => (r.method, r.body)) =
        some (.get, none) ∧
      ¬∃ last, (atLocalhost.publishBlock sampleBlock (redirecting 303)).requests.getLast? = some last ∧
        last.method = .post ∧ last.body = some (blockText sampleBlock) := by
  have hlast : (atLocalhost.publishBlock sampleBlock (redirecting 303)).requests.getLast?.map
      (fun r => (r.method, r.body)) = some (.get, none) := by decide +kernel
  refine ⟨by decide +kernel, hlast, fun ⟨last, heq, hmethod, _⟩ => ?_⟩
  rw [heq, Option.map_some, hmethod] at hlast
  cases hlast

end

end Client

end ChainHead
