import ChainHead.Http.Message
import ChainHead.Url.Reference

/-! What becomes of a request. A network takes requests in turn: after a time, or never, it responds or closes
the connection. Redirections are followed, ten at most, and the time to wait is for all of them together.
`Exchange.requests` lists what really went out. -/

namespace ChainHead.Http

/-- What happens to one request: when, if ever, and the response, if any. Times are in milliseconds. -/
structure Turn where
  delay : Option Nat := some 0
  response : Option Response
deriving DecidableEq, Repr

/-- A network. One that is reached takes its turns in order and then closes every connection. -/
inductive Network where
  | unreachable
  | reached (turns : List Turn)
deriving DecidableEq, Repr

inductive Transport where
  | timeout
  | redirect
  | builder
  | other
deriving DecidableEq, Repr

/-- What became of a request: all requests that went out for it, the turns that are left, and the response to
the last request, or why there is none. -/
structure Exchange where
  requests : List Request
  network : Network
  outcome : Except Transport (Method × Response)

def redirectLimit : Nat := 10

def destination (u : Url) : Option (Url.Host × Option UInt16) :=
  u.authority?.map fun a => (a.host, a.port <|> Url.defaultPort? u.scheme)

/-- Whether a status sends a request elsewhere, and whether the request stays what it is. -/
def redirection? (status : Nat) : Option Bool :=
  if status = 301 ∨ status = 302 ∨ status = 303 then some false
  else if status = 307 ∨ status = 308 then some true
  else none

/-- The request that a response asks for. Most redirections ask for the content only: the request loses its
body, and its method unless that was to ask for content. Credentials do not go to another place. -/
def redirected? [Url.Idna] (request : Request) (response : Response) : Option Request := do
  let whole ← redirection? response.status
  let location ← field? response.fields "location"
  let next ← (request.url.join location).toOption
  if !(Target.ofUrl next).isOk then none
  let kept :=
    if whole then request
    else
      { request with
        method := if request.method = .head then .head else .get
        body := none
        contentType := none }
  return {
    kept with
    url := bareUrl next
    authorization := if destination next = destination request.url then request.authorization else none }

def Exchange.after (request : Request) (e : Exchange) : Exchange :=
  { e with requests := request :: e.requests }

def exchange [Url.Idna] (left budget : Nat) (request : Request) : List Turn → Exchange
  | [] =>
    if isRequestable request.url then ⟨[request], .reached [], .error .other⟩
    else ⟨[], .reached [], .error .builder⟩
  | turn :: rest =>
    if !isRequestable request.url then ⟨[], .reached (turn :: rest), .error .builder⟩
    else
      match turn.delay with
      | none => ⟨[request], .reached rest, .error .timeout⟩
      | some delay =>
        if budget < delay then ⟨[request], .reached rest, .error .timeout⟩
        else
          match turn.response with
          | none => ⟨[request], .reached rest, .error .other⟩
          | some response =>
            match redirected? request response with
            | none => ⟨[request], .reached rest, .ok (request.method, response)⟩
            | some next =>
              if left = 0 then ⟨[request], .reached rest, .error .redirect⟩
              else (exchange (left - 1) (budget - delay) next rest).after request

/-- Sends a request, waiting for a time at most. -/
def send [Url.Idna] (timeout : Nat) (request : Request) : Network → Exchange
  | .unreachable =>
    ⟨[], .unreachable, .error (if isRequestable request.url then .other else .builder)⟩
  | .reached turns => exchange redirectLimit timeout request turns

end ChainHead.Http
