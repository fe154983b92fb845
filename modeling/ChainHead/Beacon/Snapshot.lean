import ChainHead.Beacon.Records

/-! The validator set as a map from canonical keys to rows. Of rows with the same key the last one
counts. The entries of the map are kept in the order in which their keys came first. -/

namespace ChainHead

/-- Rows by the keys that they were put under; no key occurs twice. -/
structure Snapshot where
  entries : List (PublicKey × ValidatorEntry)
deriving DecidableEq

namespace Snapshot

def empty : Snapshot := ⟨[]⟩

/-- Puts a row in the place of the one that stands under a key, or behind all rows. -/
def put (key : PublicKey) (row : ValidatorEntry) :
    List (PublicKey × ValidatorEntry) → List (PublicKey × ValidatorEntry)
  | [] => [(key, row)]
  | (other, old) :: rest =>
    if other = key then (other, row) :: rest else (other, old) :: put key row rest

/-- Puts a row under its own key. -/
def insert (s : Snapshot) (row : ValidatorEntry) : Snapshot := ⟨put row.key row s.entries⟩

def ofRows (rows : List ValidatorEntry) : Snapshot := rows.foldl insert empty

def get? (s : Snapshot) (key : PublicKey) : Option ValidatorEntry :=
  (s.entries.find? (·.1 = key)).map (·.2)

def keys (s : Snapshot) : List PublicKey := s.entries.map (·.1)

def size (s : Snapshot) : Nat := s.entries.length

end Snapshot

end ChainHead
