import ChainHead.Toml.Scalar
import ChainHead.Toml.Table

/-! Values of any kind: scalars, lists between brackets, which may go over lines and end in a comma, and
tables between braces, which may not. -/

namespace ChainHead.Toml.Reader

/-- Fails with a flaw at a place, if there is one. -/
def lift {α : Type} (span : Span) : Except Flaw α → Reader α
  | .ok a => pure a
  | .error f => fun _ => .error ⟨.flaw f, span⟩

/-- One step through a list; `done` holds the items before, last one first. -/
def itemStep (value : Reader Node) (done : List Node) : Reader (List Node ⊕ List Node) := do
  space
  if ← accept [']'] then return .inr done.reverse
  let item ← value
  space
  if ← accept [','] then return .inl (item :: done)
  if ← accept [']'] then return .inr (item :: done).reverse
  mismatch "array" ["`]`"]

def list (value : Reader Node) : Reader Node := do
  let (span, items) ← spanned do
    eat 1
    loop (itemStep value) []
  return .list span items

def member (limit : Nat) (value : Reader Node) : Reader (List Key × Key × Node) := do
  let (path, key) ← keys limit
  if !(← accept ['=']) then refuse (.mismatch none ["`.`", "`=`"])
  blanks
  return (path, key, ← value)

def memberStep (limit : Nat) (value : Reader Node) (done : Entries) : Reader (Entries ⊕ Entries) := do
  let (span, path, key, item) ← spanned (member limit value)
  blanks
  let more ← lift span (addDotted none path key item .braces done)
  if ← accept [','] then return .inl more
  if ← accept ['\x7d'] then return .inr more
  mismatch "inline table" ["`\x7d`"]

def braces (limit : Nat) (value : Reader Node) : Reader Node := do
  let (span, entries) ← spanned do
    eat 1
    blanks
    if ← accept ['\x7d'] then return []
    loop (memberStep limit value) []
  return .table .braces (some span) entries

/-- Reads a value with so many levels of values inside it at most. -/
def value (limit : Nat) : Nat → Reader Node
  | 0 => scalar
  | levels + 1 => do
    match ← peek with
    | some '[' => list (value limit levels)
    | some '\x7b' => braces limit (value limit levels)
    | _ => scalar

end ChainHead.Toml.Reader
