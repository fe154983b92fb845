import ChainHead.Proofs.Beacon.Endpoints
import ChainHead.Proofs.Client.Accessors
import ChainHead.Proofs.Client.Publication
import ChainHead.Proofs.Http.Outcomes

/-! How requests fail. What a request comes to when redirections have been followed decides on the result alone: no
response, or one whose success breaks off, is a transport error; a response without success is a status error, whatever
its body holds; a success that does not read as what was asked for is a decode error; and any other one gives its data.
The cases exclude each other, and there is no further one. -/

namespace ChainHead

open Http (Method Response Transport)

namespace Fetch

variable {α β : Type}

def Succeeds (response : Response) : Prop := 200 ≤ response.status ∧ response.status < 300

/-- The text that a status error carries: none exactly for a body that is empty or can not be read. -/
def Explains (method : Method) (response : Response) : Option String → Prop
  | none => response.content? method = none ∨ response.content? method = some []
  | some text => ∃ bytes ≠ [], response.content? method = some bytes ∧ String.ofList (Utf8.decodeLossy bytes) = text

theorem errorBody_eq_iff {method : Method} {response : Response} {body : Option String} :
    errorBody method response = body ↔ Explains method response body := by
  rw [errorBody]
  cases body with
  | none =>
      rw [Explains]
      split <;> simp_all
  | some text =>
      rw [Explains]
      split <;> simp_all

/-- The result of a call is decided by what its request came to, for a call that gives a part of the data. -/
structure Classified (final : Except Transport (Method × Response) → Prop) (codec : Wire.Codec β) (project : β → α)
    (result : Except Error α) : Prop where
  transport : ∀ fault, result = .error (.transport fault) ↔ final (.error fault) ∨
    fault = .other ∧ ∃ response, final (.ok (.get, response)) ∧ Succeeds response ∧ response.content? .get = none
  status : ∀ code body, result = .error (.status code body) ↔
    ∃ response, final (.ok (.get, response)) ∧ ¬Succeeds response ∧ response.status = code ∧
      Explains .get response body
  decode : ∀ fault, result = .error (.decode fault) ↔ ∃ response bytes, final (.ok (.get, response)) ∧
    Succeeds response ∧ response.content? .get = some bytes ∧ codec.decode bytes = .error fault
  ok : ∀ a, result = .ok a ↔ ∃ response bytes data, final (.ok (.get, response)) ∧ Succeeds response ∧
    response.content? .get = some bytes ∧ codec.decode bytes = .ok data ∧ project data = a
  total : (∃ a, result = .ok a) ∨ (∃ fault, result = .error (.transport fault)) ∨
    (∃ code body, result = .error (.status code body)) ∨ ∃ fault, result = .error (.decode fault)

/-- The result of a call that gives the status only. -/
structure ClassifiedByStatus (final : Except Transport (Method × Response) → Prop) (result : Except Error Nat) :
    Prop where
  transport : ∀ fault, result = .error (.transport fault) ↔ final (.error fault)
  status : ∀ code body, result = .error (.status code body) ↔
    ∃ method response, final (.ok (method, response)) ∧ ¬Succeeds response ∧ response.status = code ∧
      Explains method response body
  ok : ∀ status, result = .ok status ↔
    ∃ method response, final (.ok (method, response)) ∧ Succeeds response ∧ response.status = status
  total : (∃ status, result = .ok status) ∨ (∃ fault, result = .error (.transport fault)) ∨
    ∃ code body, result = .error (.status code body)

theorem judge_of_succeeds {method : Method} {response : Response} (h : Succeeds response) :
    judge (.ok (method, response)) = .ok (method, response) := by
  rw [judge, if_pos]
  simpa [Succeeds, Http.isSuccess] using h

theorem judge_of_not_succeeds {method : Method} {response : Response} (h : ¬Succeeds response) :
    judge (.ok (method, response)) = .error (.status response.status (errorBody method response)) := by
  rw [judge, if_neg]
  simpa [Succeeds, Http.isSuccess] using h

/-- The status of a response, unless there is none or it is no success. -/
theorem classifiedByStatus_of_outcome {final : Except Transport (Method × Response) → Prop}
    {outcome : Except Transport (Method × Response)} (hfinal : ∀ o, final o ↔ outcome = o) :
    ClassifiedByStatus final ((judge outcome).bind fun answer => .ok answer.2.status) := by
  cases outcome with
  | error fault => constructor <;> simp [hfinal, judge, Except.bind]
  | ok answer =>
      obtain ⟨method, response⟩ := answer
      by_cases hsuccess : Succeeds response
      · rw [judge_of_succeeds hsuccess]
        constructor <;> simp [hfinal, Except.bind, hsuccess]
      · rw [judge_of_not_succeeds hsuccess]
        have hbody : ∃ body, Explains method response body := ⟨_, errorBody_eq_iff.mp rfl⟩
        constructor <;> simp [hfinal, Except.bind, hsuccess, errorBody_eq_iff, hbody]

theorem classified_of_outcome {final : Except Transport (Method × Response) → Prop}
    {outcome : Except Transport (Method × Response)} (hfinal : ∀ o, final o ↔ outcome = o)
    (hmethod : ∀ method response, outcome = .ok (method, response) → method = .get) (codec : Wire.Codec β)
    (project : β → α) :
    Classified final codec project
      (((judge outcome).bind fun answer => Fetch.decode codec answer.1 answer.2).map project) := by
  cases outcome with
  | error fault => constructor <;> simp [hfinal, judge, Except.bind, Except.map]
  | ok answer =>
      obtain ⟨method, response⟩ := answer
      obtain rfl := hmethod method response rfl
      by_cases hsuccess : Succeeds response
      · rw [judge_of_succeeds hsuccess]
        cases hcontent : response.content? .get with
        | none =>
            constructor <;> simp [hfinal, Except.bind, Except.map, hsuccess, Fetch.decode, hcontent,
              @eq_comm _ Transport.other]
        | some bytes =>
            cases hdecode : codec.decode bytes with
            | error fault =>
                constructor <;> simp [hfinal, Except.bind, Except.map, hsuccess, Fetch.decode, hcontent, hdecode]
            | ok data =>
                constructor <;> simp [hfinal, Except.bind, Except.map, hsuccess, Fetch.decode, hcontent, hdecode]
      · rw [judge_of_not_succeeds hsuccess]
        have hbody : ∃ body, Explains .get response body := ⟨_, errorBody_eq_iff.mp rfl⟩
        constructor <;> simp [hfinal, Except.bind, Except.map, hsuccess, errorBody_eq_iff, hbody]

theorem classifiedByStatus_call [Url.Idna] (timeout : UInt64) (request : Http.Request) (network : Http.Network) :
    ClassifiedByStatus (Http.ComesFrom timeout.toNat request network)
      (call timeout request (fun _ response => .ok response.status) network).result :=
  classifiedByStatus_of_outcome fun _ => Http.outcome_send_iff.symm

theorem classified_get [Url.Idna] (timeout : UInt64) (url : Url) (network : Http.Network) (codec : Wire.Codec β)
    (project : β → α) :
    Classified (Http.ComesFrom timeout.toNat (Fetch.request .get url none) network) codec project
      ((get timeout url codec network).result.map project) :=
  classified_of_outcome (fun _ => Http.outcome_send_iff.symm) (fun _ _ => Http.method_eq_get rfl) codec project

end Fetch

/-- For a node that is spoken to over http, what a request comes to decides on the result of the operation that makes
it: on that of an operation that asks for data, which gives the data or a part of it, and on that of one that asks for
a status, which gives it whatever the body of the response holds. -/
theorem failures_are_classified [Url.Idna] {text : String} {base : Url} (hread : Url.read text = .ok base)
    (hscheme : base.scheme = "http") {c : Client} (hc : c.url = base.directory) (network : Http.Network) :
    (∀ accessor : Accessor, ∃ url, accessor.endpoint.url c.url = .ok url ∧
      Fetch.Classified (Http.ComesFrom (accessor.timeout c).toNat (Fetch.request .get url none) network)
        (enveloped accessor.codec) accessor.project (accessor.ask c network).result) ∧
    (∀ block, ∃ url, Endpoint.blocks.url c.url = .ok url ∧
      Fetch.ClassifiedByStatus (Http.ComesFrom c.requestTimeout.toNat (Client.handIn url block) network)
        (c.publishBlock block network).result) ∧
    ∀ {β : Type} (timeout : UInt64) (method : Method) (url : Url) (sent : Wire.Codec β) (body : Option β),
      Fetch.ClassifiedByStatus
        (Http.ComesFrom timeout.toNat (Fetch.request method url (Fetch.bodyText sent body)) network)
        (Fetch.fetchStatus timeout method url sent body network).result := by
  obtain ⟨a, segments, hbase⟩ := Url.isBase_of_read hread (.inl hscheme)
  have hurl (e : Endpoint) : ∃ url, e.url c.url = .ok url := by
    rw [hc, Endpoint.url_directory hbase]
    exact ⟨_, Endpoint.url_eq hbase e⟩
  refine ⟨fun accessor => ?_, fun block => ?_, fun timeout method url sent body => ?_⟩
  · obtain ⟨url, hurl⟩ := hurl accessor.endpoint
    rw [(accessor.ask_eq_query c network).1, Accessor.query_eq_get hurl]
    exact ⟨url, hurl, Fetch.classified_get (accessor.timeout c) url network (enveloped accessor.codec) accessor.project⟩
  · obtain ⟨url, hurl⟩ := hurl .blocks
    rw [Client.publishBlock_eq hurl]
    exact ⟨url, hurl, Fetch.classifiedByStatus_call _ _ network⟩
  · exact Fetch.classifiedByStatus_call timeout _ network

/-- A node that sends every request elsewhere, where it fails with a text that is not all UTF-8. -/
def failing : Http.Network :=
  .reached [{ response := some { status := 302, fields := [("location", "/busy")] } },
    { response := some { status := 503, body := [0x62, 0xff] } }]

section

open scoped Url.Idna

theorem failures_are_classified_failing :
    Url.read "http://localhost:5052" = .ok Client.atLocalhost.url ∧
      (Client.atLocalhost.syncStatus failing).result = .error (.status 503 (some "b\uFFFD")) := by
  have hread : Url.read "http://localhost:5052" = .ok Client.atLocalhost.url := by decide +kernel
  obtain ⟨url, hurl, hclassified⟩ :=
    (failures_are_classified hread rfl (c := Client.atLocalhost) rfl failing).1 .syncStatus
  have hsync : Accessor.syncStatus.endpoint.url Client.atLocalhost.url =
      .ok ⟨"http", .divided (some { host := .name "localhost", port := some 5052 }) ["eth", "v1", "node", "syncing"],
        none, none⟩ := by decide +kernel
  obtain rfl := Except.ok.inj (hurl.symm.trans hsync)
  refine ⟨hread, (hclassified.status 503 _).mpr ⟨{ status := 503, body := [0x62, 0xff] }, ?_, ?_, rfl, ?_⟩⟩
  · exact Http.outcome_send_iff.mp (by decide +kernel)
  · rw [Fetch.Succeeds]
    decide
  · exact ⟨[0x62, 0xff], List.cons_ne_nil _ _, rfl, by decide +kernel⟩

end

end ChainHead
