import ChainHead.Text.Numeral
import ChainHead.Url.Domain
import ChainHead.Url.Fault
import ChainHead.Url.Percent

/-! Hosts. Under a special scheme a host is a domain, an IPv4 address in any of its spellings, or an
IPv6 address between brackets; a name whose last label looks like a number has to be an IPv4 address. Under
any other scheme a host is an IPv6 address or a plain name. -/

namespace ChainHead.Url

inductive Host where
  | name (text : String)
  | ipv4 (address : UInt32)
  | ipv6 (groups : Vector UInt16 8)
deriving DecidableEq

namespace Host

def empty : Host := .name ""

/-- The value of a numeral in the given radix, up to 16. -/
def numeral? (radix : Nat) (text : List Char) : Option Nat :=
  text.foldlM (fun value c => do
    let d ← Hex.digit? c.toNat.toUInt8
    if c.toNat < 0x80 ∧ d.toNat < radix then some (value * radix + d.toNat) else none) 0

/-- The value of one part of an IPv4 address: hexadecimal behind `0x`, octal behind `0`, else decimal. -/
def part? : List Char → Option Nat
  | [] => none
  | '0' :: 'x' :: rest => numeral? 16 rest
  | '0' :: 'X' :: rest => numeral? 16 rest
  | '0' :: c :: rest => numeral? 8 (c :: rest)
  | text => numeral? 10 text

def isNumber (label : List Char) : Bool :=
  (!label.isEmpty && label.all Char.isDigit) || (part? label).isSome

def labels (domain : List Char) : List (List Char) :=
  let all := Cut.pieces (· == '.') domain
  if all.length ≠ 1 ∧ all.getLast? = some [] then all.dropLast else all

def endsInNumber (domain : List Char) : Bool :=
  (labels domain).getLast?.any isNumber

/-- The address of the parts. The last part fills the bytes that the others leave. -/
def address? (parts : List Nat) : Option UInt32 := do
  let last ← parts.getLast?
  let front := parts.dropLast
  if 3 < front.length ∨ Nat.pow 256 (4 - front.length) ≤ last ∨ front.any (255 < ·) then none
  else
    let high := front.foldl (fun value n => value * 256 + n) 0
    some (high * Nat.pow 256 (4 - front.length) + last).toUInt32

def readIpv4 (domain : List Char) : Option Host := do
  return .ipv4 (← address? (← (labels domain).mapM part?))

/-- A byte of an IPv4 address inside an IPv6 address, without leading zeros. -/
def octet? (text : List Char) : Option Nat := do
  let value ← numeral? 10 text
  if text = [] ∨ 255 < value ∨ (text.head? = some '0' ∧ text ≠ ['0']) then none else some value

def tail? (text : List Char) : Option (List Nat) := do
  match ← (Cut.pieces (· == '.') text).mapM octet? with
  | [a, b, c, d] => some [a * 256 + b, c * 256 + d]
  | _ => none

def group? (text : List Char) : Option Nat :=
  if text = [] ∨ 4 < text.length then none else numeral? 16 text

/-- The values of groups with colons between them. The last one may be an IPv4 address, which counts as
two. -/
def groups? : List (List Char) → Option (List Nat)
  | [] => some []
  | [text] => if text.contains '.' then tail? text else do return [← group? text]
  | text :: rest => do return (← group? text) :: (← groups? rest)

def gap? : List Char → Option (List Char × List Char)
  | ':' :: ':' :: rest => some ([], rest)
  | c :: rest => (gap? rest).map fun (front, back) => (c :: front, back)
  | [] => none

def side? (text : List Char) : Option (List Nat) :=
  if text = [] then some [] else groups? (Cut.pieces (· == ':') text)

/-- The eight groups of an IPv6 address, of which a pair of colons stands for at least one. -/
def ipv6Groups? (text : List Char) : Option (List Nat) := do
  match gap? text with
  | none => groups? (Cut.pieces (· == ':') text)
  | some (front, back) =>
    if front.contains '.' then none
    let left ← side? front
    let right ← side? back
    if 7 < left.length + right.length then none
    return left ++ List.replicate (8 - left.length - right.length) 0 ++ right

def readIpv6 (text : List Char) : Option Host := do
  let groups := ((← ipv6Groups? text).map Nat.toUInt16).toArray
  if h : groups.size = 8 then some (.ipv6 ⟨groups, h⟩) else none

def readBracketed (text : List Char) : Except Fault Host :=
  match text.getLast?, readIpv6 text.dropLast with
  | some ']', some host => .ok host
  | _, _ => .error .badIpv6

def readSpecial [Idna] : List Char → Except Fault Host
  | '[' :: rest => readBracketed rest
  | text =>
    match Utf8.decode? (Percent.decode (Utf8.encode text)) >>= Domain.ascii? with
    | none => .error .badDomain
    | some [] => .error .emptyHost
    | some domain =>
      if endsInNumber domain then
        match readIpv4 domain with
        | some host => .ok host
        | none => .error .badIpv4
      else .ok (.name (String.ofList domain))

def isForbiddenInName (c : Char) : Bool :=
  ['\x00', '\t', '\n', '\r', ' ', '#', '/', ':', '<', '>', '?', '@', '[', '\\', ']', '^', '|'].contains c

def readPlain : List Char → Except Fault Host
  | '[' :: rest => readBracketed rest
  | text =>
    if text.any isForbiddenInName then .error .badHostCharacter
    else .ok (.name (String.ofList (Percent.encode Percent.inControls text)))

def zeroRuns : List UInt16 → List Nat
  | [] => []
  | g :: rest =>
    let runs := zeroRuns rest
    (if g = 0 then runs.head?.getD 0 + 1 else 0) :: runs

def groupsText (groups : List UInt16) : List Char :=
  List.intercalate [':'] (groups.map fun g => Nat.toDigits 16 g.toNat)

/-- An IPv6 address. The first of the longest runs of two or more zeros is left out. -/
def ipv6Text (groups : List UInt16) : List Char :=
  let runs := zeroRuns groups
  let longest := runs.foldl max 0
  if longest < 2 then groupsText groups
  else
    let start := runs.idxOf longest
    groupsText (groups.take start) ++ [':', ':'] ++ groupsText (groups.drop (start + longest))

def text : Host → String
  | .name t => t
  | .ipv4 a =>
    String.intercalate "."
      ([a >>> 24, (a >>> 16) % 256, (a >>> 8) % 256, a % 256].map fun b => Numeral.text b.toNat)
  | .ipv6 groups => String.ofList ('[' :: ipv6Text groups.toList ++ [']'])

end Host

end ChainHead.Url
