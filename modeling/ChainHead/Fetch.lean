import ChainHead.Error
import ChainHead.Log
import ChainHead.Wire.Codec

/-! Typed requests. A request carries JSON and asks for JSON. What becomes of it is one of four things: no
response, a response without success, a response that does not read as what was asked for, or the value. -/

namespace ChainHead

/-- What an operation came to: its result, the requests that went out, what was logged, and the network behind
it. -/
structure Outcome (α : Type) where
  result : Except Error α
  requests : List Http.Request
  log : List LogEntry := []
  network : Http.Network

namespace Outcome

variable {α β : Type}

def failed (e : Error) (network : Http.Network) : Outcome α :=
  { result := .error e, requests := [], network }

def map (f : α → β) (o : Outcome α) : Outcome β :=
  { o with result := o.result.map f }

theorem map_map {γ : Type} (f : α → β) (g : β → γ) (o : Outcome α) :
    (o.map f).map g = o.map (g ∘ f) := by
  cases o with
  | mk result requests log network => cases result <;> rfl

end Outcome

namespace Fetch

open Http (Method Request Response Network)

variable {α β : Type}

def mediaType : String := "application/json"

/-- A request to a URL, with a body or without. -/
def request (method : Method) (url : Url) (body : Option String) : Request :=
  { method
    url := Http.bareUrl url
    accept := some mediaType
    contentType := body.map fun _ => mediaType
    authorization := Http.authorization? url
    body }

/-- The text of a body that explains a failure. None is left of an empty or a broken one. -/
def errorBody (method : Method) (response : Response) : Option String :=
  match response.content? method with
  | none => none
  | some [] => none
  | some bytes => some (String.ofList (Utf8.decodeLossy bytes))

def judge : Except Http.Transport (Method × Response) → Except Error (Method × Response)
  | .error fault => .error (.transport fault)
  | .ok (method, response) =>
    if Http.isSuccess response.status then .ok (method, response)
    else .error (.status response.status (errorBody method response))

def decode (codec : Wire.Codec α) (method : Method) (response : Response) : Except Error α :=
  match response.content? method with
  | none => .error (.transport .other)
  | some bytes =>
    match codec.decode bytes with
    | .ok a => .ok a
    | .error fault => .error (.decode fault)

/-- Sends a request, and reads the response if it is a success. -/
def call [Url.Idna] (timeout : UInt64) (r : Request) (read : Method → Response → Except Error α)
    (network : Network) : Outcome α :=
  let e := Http.send timeout.toNat r network
  { result := do
      let (method, response) ← judge e.outcome
      read method response
    requests := e.requests
    network := e.network }

def bodyText (codec : Wire.Codec β) (body : Option β) : Option String :=
  body.map fun b => String.ofList (codec.write b)

/-- Sends a request, and gives the status and the value of the response. -/
def fetch [Url.Idna] (timeout : UInt64) (method : Method) (url : Url) (sent : Wire.Codec β) (body : Option β)
    (codec : Wire.Codec α) : Network → Outcome (Nat × α) :=
  call timeout (request method url (bodyText sent body)) fun method response => do
    return (response.status, ← decode codec method response)

/-- Sends a request, and gives the status of the response only. -/
def fetchStatus [Url.Idna] (timeout : UInt64) (method : Method) (url : Url) (sent : Wire.Codec β)
    (body : Option β) : Network → Outcome Nat :=
  call timeout (request method url (bodyText sent body)) fun _ response => .ok response.status

def get [Url.Idna] (timeout : UInt64) (url : Url) (codec : Wire.Codec α) : Network → Outcome α :=
  call timeout (request .get url none) (decode codec)

def post [Url.Idna] (timeout : UInt64) (url : Url) (sent : Wire.Codec β) (body : β) : Network → Outcome Nat :=
  fetchStatus timeout .post url sent (some body)

end Fetch

/-- Sends requests. Each of them waits for the same time, in milliseconds, unless it has a time of its own. -/
structure Fetcher where
  timeout : UInt64

namespace Fetcher

open Http (Method Network)

variable {α β : Type}

def wait (f : Fetcher) (own : Option UInt64) : UInt64 := own.getD f.timeout

def fetch [Url.Idna] (f : Fetcher) (method : Method) (url : Url) (sent : Wire.Codec β) (body : Option β)
    (codec : Wire.Codec α) : Network → Outcome (Nat × α) :=
  Fetch.fetch (f.wait none) method url sent body codec

def fetchStatus [Url.Idna] (f : Fetcher) (method : Method) (url : Url) (sent : Wire.Codec β) (body : Option β) :
    Network → Outcome Nat :=
  Fetch.fetchStatus (f.wait none) method url sent body

/-- Nothing is sent, so it does not matter how it would be written. -/
def get [Url.Idna] (f : Fetcher) (url : Url) (codec : Wire.Codec α) (network : Network) : Outcome α :=
  (f.fetch .get url codec none codec network).map (·.2)

/-- For an answer that is too large for the time that all others have. -/
def getWithTimeout [Url.Idna] (f : Fetcher) (url : Url) (timeout : UInt64) (codec : Wire.Codec α) :
    Network → Outcome α :=
  Fetch.get (f.wait (some timeout)) url codec

def post [Url.Idna] (f : Fetcher) (url : Url) (sent : Wire.Codec β) (body : β) : Network → Outcome Nat :=
  f.fetchStatus .post url sent (some body)

end Fetcher

end ChainHead
