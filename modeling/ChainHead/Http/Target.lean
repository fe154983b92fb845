import ChainHead.Url.Basic

/-! The targets of requests. A target is a scheme, an authority, and a path with a query; the path alone is a
target, too. This form is narrower than that of a URL: an authority may not hold every character,
percent-encoded bytes stand only before an at sign, and the length is bounded. -/

namespace ChainHead.Http

/-- The target of a request. Without a scheme and an authority it is only a path. -/
structure Target where
  origin : Option (String × String)
  path : String
deriving DecidableEq, Repr

namespace Target

inductive Fault where
  | empty
  | tooLong
  | schemeTooLong
  | badForm
  | badCharacter
  | badAuthority
deriving DecidableEq, Repr

def Fault.message : Fault → String
  | .empty => "empty string"
  | .tooLong => "uri too long"
  | .schemeTooLong => "scheme too long"
  | .badForm => "invalid format"
  | .badCharacter => "invalid uri character"
  | .badAuthority => "invalid authority"

def isSchemeChar (c : Char) : Bool := c.isAlphanum || ['+', '-', '.'].contains c

/-- The scheme of a text, and what stands behind the two slashes that follow it. -/
def scheme? (text : List Char) : Option (List Char × List Char) :=
  match text.span isSchemeChar with
  | (scheme, ':' :: '/' :: '/' :: rest) => some (scheme, rest)
  | _ => none

def isAuthorityChar (c : Char) : Bool :=
  c.isAlphanum ||
    ['!', '$', '&', '\'', '(', ')', '*', '+', ',', '-', '.', ':', ';', '=', '@', '[', ']', '_',
      '~'].contains c

/-- An authority of which a part is read. Colons and percent signs before an at sign or inside of
brackets do not count. -/
structure Scan where
  colons : Nat := 0
  opened : Bool := false
  closed : Bool := false
  percent : Bool := false
  bare : Bool := false

def Scan.push (s : Scan) (c : Char) : Except Fault Scan :=
  let s' := { s with bare := false }
  if c = ':' then
    if 8 ≤ s.colons then .error .badAuthority else .ok { s' with colons := s.colons + 1 }
  else if c = '[' then
    if s.percent || s.opened then .error .badAuthority else .ok { s' with opened := true }
  else if c = ']' then
    if !s.opened || s.closed then .error .badAuthority
    else .ok { s' with closed := true, colons := 0, percent := false }
  else if c = '@' then .ok { s with colons := 0, percent := false, bare := true }
  else if c = '%' then .ok { s' with percent := true }
  else if isAuthorityChar c then .ok s'
  else .error .badCharacter

def judgeAuthority (text : List Char) : Except Fault Unit := do
  let s ← text.foldlM Scan.push {}
  if s.opened ≠ s.closed ∨ 1 < s.colons ∨ s.bare ∨ s.percent then throw .badAuthority

/-- A character of a path or a query. Bytes outside ASCII may stand there. -/
def isPathChar (query : Bool) (c : Char) : Bool :=
  let n := c.toNat
  n == 0x21 || (0x24 ≤ n && n ≤ 0x3b) || n == 0x3d || (query && n == 0x3f) ||
    (0x40 ≤ n && n ≤ 0x5f) || (query && n == 0x60) || (0x61 ≤ n && n ≤ 0x7a) || n == 0x7c ||
    n == 0x7e || 0x7f ≤ n || n == 0x7b || n == 0x7d || (!query && n == 0x22)

/-- The path and the query of a text, without a fragment. -/
def readPath (text : List Char) : Except Fault String :=
  let (kept, _) := Cut.first (· == '#') text
  let (path, query) := Cut.first (· == '?') kept
  if path.all (isPathChar false) && (query.getD []).all (isPathChar true) then
    .ok (String.ofList kept)
  else .error .badCharacter

def endsAuthority (c : Char) : Bool := c == '/' || c == '?' || c == '#'

def read (text : String) : Except Fault Target :=
  let chars := text.toList
  if 65534 < text.utf8ByteSize then .error .tooLong
  else if chars = [] then .error .empty
  else if chars.head? = some '/' then (readPath chars).map (⟨none, ·⟩)
  else if chars = ['*'] then .ok ⟨none, "*"⟩
  else
    match scheme? chars with
    | none => do
      judgeAuthority (chars.takeWhile fun c => !endsAuthority c)
      if chars.any endsAuthority then throw .badForm
      return ⟨none, ""⟩
    | some (scheme, rest) => do
      if 64 < scheme.length then throw .schemeTooLong
      let authority := rest.takeWhile fun c => !endsAuthority c
      judgeAuthority authority
      if authority = [] then throw .badForm
      let path ← readPath (rest.drop authority.length)
      return ⟨some (String.ofList scheme, String.ofList authority), path⟩

def ofUrl (u : Url) : Except Fault Target := read u.text

/-- Whether a target can be asked for by itself: it names a scheme that is spoken. -/
def isSpoken (t : Target) : Bool :=
  t.origin.any fun (scheme, _) => ["http", "https"].contains (String.ofList (scheme.toList.map Char.toLower))

end Target

/-- Whether a request can be made: by a scheme that is spoken, to a host. -/
def isRequestable (u : Url) : Bool :=
  (u.scheme = "http" || u.scheme = "https") && u.host?.isSome && (Target.ofUrl u).isOk

end ChainHead.Http
