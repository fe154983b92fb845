import ChainHead.Url.Host

/-! URLs in parts. Every part holds its percent-encoded form, so the text of a URL is its parts with marks
between them. A URL either has a path of segments, perhaps below an authority, or one undivided path, and
only the first kind can have anything below it. -/

namespace ChainHead

namespace Url

/-- Who to talk to, and in whose name. -/
structure Authority where
  user : String := ""
  password : Option String := none
  host : Host
  port : Option UInt16 := none
deriving DecidableEq

/-- What stands behind the scheme. The path of segments has a slash before each of them. -/
inductive Place where
  | undivided (path : String)
  | divided (authority : Option Authority) (segments : List String)
deriving DecidableEq

end Url

structure Url where
  scheme : String
  place : Url.Place
  query : Option String := none
  fragment : Option String := none
deriving DecidableEq

namespace Url

/-- The port that a special scheme has unless another one is named. -/
def defaultPort? (scheme : String) : Option UInt16 :=
  if scheme = "http" ∨ scheme = "ws" then some 80
  else if scheme = "https" ∨ scheme = "wss" then some 443
  else if scheme = "ftp" then some 21
  else none

/-- Whether a scheme is special: its URLs have an authority and a path, and a backslash counts as a slash. -/
def isSpecial (scheme : String) : Bool :=
  scheme = "file" || (defaultPort? scheme).isSome

def Authority.credentials (a : Authority) : String :=
  let password :=
    match a.password with
    | none => ""
    | some p => ":" ++ p
  if a.user = "" ∧ a.password = none then "" else a.user ++ password ++ "@"

def Authority.target (a : Authority) : String :=
  a.host.text ++
    match a.port with
    | none => ""
    | some p => ":" ++ Numeral.text p.toNat

def segmentsText (segments : List String) : String :=
  String.join (segments.map ("/" ++ ·))

def Place.path : Place → String
  | .undivided path => path
  | .divided _ segments => segmentsText segments

/-- The text behind the scheme. A path that would look like an authority is marked with a dot. -/
def Place.text : Place → String
  | .undivided path => path
  | .divided (some a) segments => "//" ++ a.credentials ++ a.target ++ segmentsText segments
  | .divided none segments =>
    match segments with
    | "" :: _ :: _ => "/." ++ segmentsText segments
    | _ => segmentsText segments

def path (u : Url) : String := u.place.path

def marked (mark : String) : Option String → String
  | none => ""
  | some part => mark ++ part

def text (u : Url) : String :=
  u.scheme ++ ":" ++ u.place.text ++ marked "?" u.query ++ marked "#" u.fragment

/-- The authority, if there is one. -/
def authority? (u : Url) : Option Authority :=
  match u.place with
  | .undivided _ => none
  | .divided authority _ => authority

/-- The host, if there is one that has a name. -/
def host? (u : Url) : Option Host :=
  u.authority?.map (·.host) |>.filter (· ≠ .empty)

def closed (segments : List String) : List String :=
  if segments.getLast? = some "" then segments else segments ++ [""]

/-- An undivided path that ends in a slash. A lone slash has to be encoded. -/
def closedPath (path : String) : String :=
  if path = "" then "%2F"
  else if path.toList.getLast? = some '/' then path
  else path ++ "/"

def directory (u : Url) : Url :=
  { u with
    place :=
      match u.place with
      | .undivided path => .undivided (closedPath path)
      | .divided authority segments => .divided authority (closed segments) }

def addParameter (u : Url) (name value : String) : Url :=
  let pair := String.ofList (Percent.parameter name.toList ++ '=' :: Percent.parameter value.toList)
  { u with
    query :=
      match u.query with
      | none => some pair
      | some "" => some pair
      | some query => some (query ++ "&" ++ pair) }

theorem closed_closed (segments : List String) : closed (closed segments) = closed segments := by
  unfold closed
  split
  · simp
  · simp

theorem directory_directory (scheme : String) (authority : Option Authority) (segments : List String)
    (query fragment : Option String) :
    (directory ⟨scheme, .divided authority segments, query, fragment⟩).directory =
      directory ⟨scheme, .divided authority segments, query, fragment⟩ := by
  simp [directory, closed_closed]

end Url

end ChainHead
