import ChainHead.Http.Target
import ChainHead.Text.Base64

/-! Requests and responses. The target of a request has neither a fragment nor credentials; those of its URL
go into the field `authorization`. -/

namespace ChainHead.Http

inductive Method where
  | get
  | head
  | post
  | other (name : String)
deriving DecidableEq, Repr

namespace Method

def text : Method → String
  | .get => "GET"
  | .head => "HEAD"
  | .post => "POST"
  | .other name => name

def ofText (name : String) : Method :=
  if name = "GET" then .get
  else if name = "HEAD" then .head
  else if name = "POST" then .post
  else .other name

end Method

structure Request where
  method : Method
  url : Url
  accept : Option String := none
  contentType : Option String := none
  authorization : Option String := none
  body : Option String := none
deriving DecidableEq

def Request.target (r : Request) : String := r.url.text

/-- A response. Its body may break off before its end. -/
structure Response where
  status : Nat
  fields : List (String × String) := []
  body : List UInt8 := []
  broken : Bool := false
deriving DecidableEq, Repr

/-- The value of a field. The case of its name does not count. -/
def field? (fields : List (String × String)) (name : String) : Option String :=
  (fields.find? fun f => f.1.toLower = name).map (·.2)

def isSuccess (status : Nat) : Bool := 200 ≤ status && status < 300

/-- The body of the response to a request, if it arrives as a whole. Some responses never have one. -/
def Response.content? (r : Response) (method : Method) : Option (List UInt8) :=
  if method = .head ∨ r.status = 204 ∨ r.status = 304 then some []
  else if r.broken then none
  else some r.body

def bareUrl (u : Url) : Url :=
  { u with
    fragment := none
    place :=
      match u.place with
      | .divided (some a) segments => .divided (some { a with user := "", password := none }) segments
      | place => place }

/-- The value of the field `authorization` for the credentials of a URL. -/
def authorization? (u : Url) : Option String :=
  match u.authority? with
  | none => none
  | some a =>
    if a.user = "" ∧ a.password = none then none
    else
      let decoded (t : String) : List UInt8 := Percent.decode (Utf8.encode t.toList)
      let pair := decoded a.user ++ 0x3a :: decoded (a.password.getD "")
      some ("Basic " ++ String.ofList (Base64.encode pair))

end ChainHead.Http
