import ChainHead.Url.Basic

/-! Reading URLs. A reference is cut at its first `#` and then at its first `?`. What is left of it either
begins with a scheme of its own, or it is taken relative to a base. A path is walked segment by segment: a dot
stays where it is, two dots go back one segment, all else goes forward. -/

namespace ChainHead.Url

/-- A reference without the blanks and controls around it and without the tabs and line ends in it. -/
def tidy (text : List Char) : List Char :=
  let isEdge (c : Char) : Bool := c.toNat ≤ 0x20
  let inner := ((text.dropWhile isEdge).reverse.dropWhile isEdge).reverse
  inner.filter fun c => ['\t', '\n', '\r'].contains c = false

def isSchemeChar (c : Char) : Bool := c.isAlphanum || c == '+' || c == '-' || c == '.'

/-- The scheme of a text in lower case, and what stands behind its colon. -/
def scheme? : List Char → Option (String × List Char)
  | c :: rest =>
    if c.isAlpha then
      match (c :: rest).span isSchemeChar with
      | (scheme, ':' :: more) => some (String.ofList (scheme.map Char.toLower), more)
      | _ => none
    else none
  | [] => none

def isBreak (special : Bool) (c : Char) : Bool := c == '/' || (special && c == '\\')

def isDot (segment : List Char) : Bool :=
  [".", "%2e", "%2E"].contains (String.ofList segment)

def isDoubleDot (segment : List Char) : Bool :=
  ["..", ".%2e", ".%2E", "%2e.", "%2E.", "%2e%2e", "%2e%2E", "%2E%2e", "%2E%2E"].contains
    (String.ofList segment)

def isDrive : List Char → Bool
  | [letter, mark] => letter.isAlpha && (mark == ':' || mark == '|')
  | _ => false

/-- The segment that stands for a piece of a path with the given segments before it. -/
def segment (file : Bool) (before : List String) (piece : List Char) : String :=
  if file && before.isEmpty && isDrive piece then String.ofList (piece.take 1 ++ [':'])
  else String.ofList (Percent.encode Percent.inPath piece)

/-- One segment back, given the last segments first. The drive of a file stays. -/
def back (file : Bool) : List String → List String
  | [] => []
  | [only] => if file && isDrive only.toList then [only] else []
  | _ :: before => before

/-- Walks the pieces of a path from the given segments on. The last segment stands first. -/
def walk (file : Bool) : List String → List (List Char) → List String
  | before, [] => before
  | before, [last] =>
    if isDoubleDot last then "" :: back file before
    else if isDot last then "" :: before
    else segment file before last :: before
  | before, piece :: rest =>
    if isDoubleDot piece then walk file (back file before) rest
    else if isDot piece then walk file before rest
    else walk file (segment file before piece :: before) rest

def unpadded : List String → List String
  | "" :: next :: rest => unpadded (next :: rest)
  | segments => segments

def below (scheme : String) (base : List String) (path : List Char) : List String :=
  let file := scheme = "file"
  let walked := (walk file base.reverse (Cut.pieces (isBreak (isSpecial scheme)) path)).reverse
  if file then unpadded walked else walked

def rooted (scheme : String) : List Char → List String
  | [] => if isSpecial scheme then [""] else []
  | c :: rest => below scheme [] (if isBreak (isSpecial scheme) c then rest else c :: rest)

/-- A host and what stands behind it. A colon ends a host unless it stands between brackets. -/
def hostEnd (inside : Bool) : List Char → List Char × List Char
  | [] => ([], [])
  | c :: rest =>
    if c = ':' ∧ inside = false then ([], c :: rest)
    else
      let (host, more) := hostEnd (c = '[' || (inside && c != ']')) rest
      (c :: host, more)

/-- The port that digits name, and what stands behind them. -/
def port (scheme : String) (text : List Char) : Except Fault (Option UInt16 × List Char) :=
  let (digits, rest) := text.span Char.isDigit
  let value := digits.foldl (fun n c => n * 10 + (c.toNat - 48)) 0
  if value ≥ 0x10000 then .error .badPort
  else if rest ≠ [] ∧ rest.head? ≠ some '\\' then .error .badPort
  else if digits = [] ∨ defaultPort? scheme = some value.toUInt16 then .ok (none, rest)
  else .ok (some value.toUInt16, rest)

/-- The user name and the password. The first colon parts them, and an empty password does not count. -/
def credentials (text : List Char) : String × Option String :=
  let encoded (t : List Char) : String := String.ofList (Percent.encode Percent.inUser t)
  match Cut.first (· == ':') text with
  | (user, some (c :: password)) => (encoded user, some (encoded (c :: password)))
  | (user, _) => (encoded user, none)

def lastAt (text : List Char) : Option (List Char × List Char) :=
  match Cut.first (· == '@') text.reverse with
  | (back, some front) => some (front.reverse, back.reverse)
  | (_, none) => none

/-- Reads an authority of which `more` says whether something follows it. What no port can hold is left. -/
def authority [Idna] (scheme : String) (text : List Char) (more : Bool) :
    Except Fault (Authority × List Char) := do
  let (named, place) := (lastAt text).elim ([], text) id
  if text.head? = some '@' ∧ named = [] ∧ place = [] ∧ more then throw .emptyHost
  let (user, password) := credentials named
  let (hostText, behind) := hostEnd false place
  if hostText = [] ∧ (isSpecial scheme ∨ behind ≠ [] ∨ user ≠ "" ∨ password ≠ none) then
    throw .emptyHost
  let host ← if isSpecial scheme then Host.readSpecial hostText else Host.readPlain hostText
  let (number, rest) ← port scheme (behind.drop 1)
  return (⟨user, password, host, number⟩, rest)

def authorityAndPath [Idna] (scheme : String) (text : List Char) : Except Fault Place := do
  let (front, path) := text.span fun c => !isBreak (isSpecial scheme) c
  let (a, rest) ← authority scheme front (path ≠ [])
  return .divided (some a) (rooted scheme (rest ++ path))

/-- Reads what stands behind `file:`. A host that names a drive is the begin of the path, and
`localhost` names no host. -/
def filePlace [Idna] (text : List Char) : Except Fault Place :=
  let (slashes, _) := text.span (isBreak true)
  let host (h : Host) : Option Authority := some { host := h }
  if slashes.length < 2 then
    .ok (.divided (host .empty) (below "file" [] (text.drop slashes.length)))
  else
    let (name, path) := (text.drop 2).span fun c => !isBreak true c
    if isDrive name then .ok (.divided (host .empty) (below "file" [] (name ++ path)))
    else if name = [] then .ok (.divided (host .empty) (below "file" [] (path.drop 1)))
    else do
      let h ← Host.readSpecial name
      let segments := unpadded (rooted "file" path)
      if h = .name "localhost" ∨ (segments.head?.any fun s => isDrive s.toList) then
        return .divided (host .empty) segments
      return .divided (host h) segments

def absolute [Idna] (scheme : String) (text : List Char) : Except Fault Place :=
  if scheme = "file" then filePlace text
  else if isSpecial scheme then authorityAndPath scheme (text.dropWhile (isBreak true))
  else
    match text with
    | '/' :: '/' :: rest => authorityAndPath scheme rest
    | '/' :: rest => .ok (.divided none (below scheme [] rest))
    | _ => .ok (.undivided (String.ofList (Percent.encode Percent.inControls text)))

/-- Reads a path, or an authority and a path, relative to a place that has segments. -/
def relative [Idna] (scheme : String) (baseAuthority : Option Authority) (base : List String)
    (text : List Char) : Except Fault Place :=
  let (slashes, rest) := text.span (isBreak (isSpecial scheme))
  match slashes with
  | [] => .ok (.divided baseAuthority (below scheme base.dropLast text))
  | [_] => .ok (.divided baseAuthority (below scheme [] rest))
  | first :: second :: _ =>
    if scheme = "file" then filePlace text
    else
      authorityAndPath scheme (if first = '/' ∧ second = '/' then text.drop 2 else rest)

def encodeQuery (scheme : String) (query : List Char) : String :=
  let set := if isSpecial scheme then Percent.inSpecialQuery else Percent.inQuery
  String.ofList (Percent.encode set query)

structure Reference where
  main : List Char
  query : Option (List Char)
  fragment : Option (List Char)

def Reference.ofText (text : String) : Reference :=
  let (front, fragment) := Cut.first (· == '#') (tidy text.toList)
  let (main, query) := Cut.first (· == '?') front
  ⟨main, query, fragment⟩

/-- The URL at a place with the query and the fragment of a reference. -/
def Reference.at (r : Reference) (scheme : String) (place : Place) : Url :=
  { scheme, place
    query := r.query.map (encodeQuery scheme)
    fragment := r.fragment.map fun f => String.ofList (Percent.encode Percent.inFragment f) }

/-- The URL of a reference without a scheme. An empty path keeps the path of the base, and its query
unless there is a new one. -/
def Reference.relativeTo [Idna] (r : Reference) (base : Url) (main : List Char) : Except Fault Url :=
  let kept := r.at base.scheme base.place
  let query := if r.query.isSome then kept.query else base.query
  match base.place with
  | .undivided _ =>
    if main = [] ∧ r.query = none ∧ r.fragment ≠ none then .ok { kept with query }
    else .error .undividedBase
  | .divided baseAuthority segments =>
    if main = [] then .ok { kept with query }
    else (relative base.scheme baseAuthority segments main).map (r.at base.scheme)

/-- Whether a text that follows the scheme of its base names no authority. -/
def followsBase (scheme : String) (base : Url) (text : List Char) : Bool :=
  base.scheme = scheme && (defaultPort? scheme).isSome &&
    (text.takeWhile (isBreak true)).length < 2

/-- The URL of a reference, with a base or without. -/
def resolve [Idna] (base : Option Url) (text : String) : Except Fault Url :=
  let r := Reference.ofText text
  match scheme? r.main, base with
  | some (scheme, rest), none => (absolute scheme rest).map (r.at scheme)
  | some (scheme, rest), some b =>
    if followsBase scheme b rest then r.relativeTo b rest
    else (absolute scheme rest).map (r.at scheme)
  | none, some b => r.relativeTo b r.main
  | none, none => .error .noBase

def read [Idna] (text : String) : Except Fault Url := resolve none text

def join [Idna] (u : Url) (reference : String) : Except Fault Url := resolve (some u) reference

/-- The URL to which a path leads that has no mark of another part of a URL in it. -/
def descend (u : Url) (path : String) : Except Fault Url :=
  match u.place with
  | .undivided _ => .error .undividedBase
  | .divided authority segments =>
    .ok ⟨u.scheme, .divided authority (below u.scheme segments.dropLast path.toList), none, none⟩

end ChainHead.Url
