import ChainHead.Decimal.Shortest
import ChainHead.Text.Quoted
import ChainHead.Toml.Fault

/-! The values of a document, with the places they stand at. A table tells how it came to be, because that
decides what may still be added to it. A table that was only named on the way to another one, or that dotted
keys built, stands at no place of its own. -/

namespace ChainHead.Toml

/-- How a table came to be: written between braces, opened by a header of its own, named on the way to the
table of a longer header, or built by dotted keys. -/
inductive Origin where
  | braces
  | header
  | way
  | dots
deriving DecidableEq, Repr

structure Key where
  name : String
  span : Span
deriving DecidableEq, Repr

inductive Node where
  | text (span : Span) (value : String)
  | integer (span : Span) (value : Int)
  | real (span : Span) (bits : UInt64)
  | flag (span : Span) (value : Bool)
  | moment (span : Span)
  | list (span : Span) (items : List Node)
  | tables (span : Option Span) (items : List Node)
  | table (origin : Origin) (span : Option Span) (entries : List (Key × Node))

abbrev Entries := List (Key × Node)

def Node.span? : Node → Option Span
  | .text s _ | .integer s _ | .real s _ | .flag s _ | .moment s | .list s _ => some s
  | .tables s _ | .table _ s _ => s

/-- Reals are positional, and a whole one keeps a point. -/
def realLayout : Shortest.Layout := ⟨fun _ => true, true⟩

def integerText (n : Int) : String :=
  (if n < 0 then "-" else "") ++ Numeral.text n.natAbs

/-- How a message names a value. Dates count as maps. -/
def Node.describe : Node → String
  | .text _ value => "string " ++ Quoted.text value
  | .integer _ value => "integer `" ++ integerText value ++ "`"
  | .real _ bits => "floating point `" ++ Shortest.text realLayout bits ++ "`"
  | .flag _ value => "boolean `" ++ (if value then "true" else "false") ++ "`"
  | .list _ _ | .tables _ _ => "sequence"
  | .moment _ | .table _ _ _ => "map"

def get? (entries : Entries) (name : String) : Option Node :=
  (entries.find? (·.1.name = name)).map (·.2)

def without (entries : Entries) (name : String) : Entries :=
  entries.filter (·.1.name ≠ name)

/-- Puts a value in the place of the one of the same key, which keeps its place, or behind all others. -/
def put (key : Key) (value : Node) : Entries → Entries
  | [] => [(key, value)]
  | (other, old) :: rest =>
    if other.name = key.name then (other, value) :: rest else (other, old) :: put key value rest

end ChainHead.Toml
