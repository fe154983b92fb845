import ChainHead.Json.Reader
import ChainHead.Text.Utf8

/-! JSON strings. `writeText` escapes a quote, a backslash and the controls, and leaves every other
character as it is. `Reader.text` reads what stands behind the opening quote: escapes are replaced and
surrogates have to come in pairs. The bytes of a run between two escapes have to be UTF-8; a run is
judged at its end, and the place of the refusal is behind its first bad byte. -/

namespace ChainHead.Json

def lowHex (n : Nat) : Char := Nat.digitChar (n % 16)

def escapeChar (c : Char) : List Char :=
  if c = '"' then ['\\', '"']
  else if c = '\\' then ['\\', '\\']
  else if c.val = 0x08 then ['\\', 'b']
  else if c.val = 0x0c then ['\\', 'f']
  else if c = '\n' then ['\\', 'n']
  else if c = '\r' then ['\\', 'r']
  else if c = '\t' then ['\\', 't']
  else if c.val < 0x20 then ['\\', 'u', '0', '0', lowHex (c.toNat / 16), lowHex c.toNat]
  else [c]

def writeText (text : List Char) : List Char :=
  '"' :: text.flatMap escapeChar ++ ['"']

namespace Reader

def hexDigit? (b : UInt8) : Option Nat :=
  if 0x30 ≤ b && b ≤ 0x39 then some (b.toNat - 0x30)
  else if 0x61 ≤ b && b ≤ 0x66 then some (b.toNat - 0x57)
  else if 0x41 ≤ b && b ≤ 0x46 then some (b.toNat - 0x37)
  else none

def hexUnit? (a b c d : UInt8) : Option Nat := do
  pure ((((← hexDigit? a) * 16 + (← hexDigit? b)) * 16 + (← hexDigit? c)) * 16 + (← hexDigit? d))

def toEnd (position : Position) : List UInt8 → Cursor
  | [] => ⟨[], position⟩
  | b :: rest => toEnd (position.after b) rest

/-- Reads four hexadecimal digits. With fewer than four bytes left all of them are passed over. -/
def hexUnit : Reader Nat := fun cursor =>
  match cursor.rest with
  | a :: b :: c :: d :: _ =>
    let behind := cursor.next.next.next.next
    match hexUnit? a b c d with
    | some n => .done n behind
    | none => refuse .badEscape behind
  | rest => refuse .endInText (toEnd cursor.position rest)

/-- Reads one expected byte of the second half of a surrogate pair. -/
def pairByte (expected : UInt8) : Reader Unit := do
  match ← peek with
  | none => refuse .endInText
  | some b =>
    eat
    if b = expected then pure () else refuse .unfinishedPair

/-- Reads the digits of a numbered escape, with the second half of a surrogate pair. -/
def numberedEscape : Reader Char := do
  let n ← hexUnit
  if 0xdc00 ≤ n && n ≤ 0xdfff then refuse .loneSurrogate
  else if 0xd800 ≤ n && n ≤ 0xdbff then
    pairByte 0x5c
    pairByte 0x75
    let m ← hexUnit
    if 0xdc00 ≤ m && m ≤ 0xdfff then
      pure (Char.ofNat (0x10000 + (n - 0xd800) * 0x400 + (m - 0xdc00)))
    else refuse .loneSurrogate
  else pure (Char.ofNat n)

def letterEscape? (b : UInt8) : Option Char :=
  match b with
  | 0x22 => some '"'
  | 0x5c => some '\\'
  | 0x2f => some '/'
  | 0x62 => some '\x08'
  | 0x66 => some '\x0c'
  | 0x6e => some '\n'
  | 0x72 => some '\r'
  | 0x74 => some '\t'
  | _ => none

def escape : Reader Char := do
  match ← next with
  | none => refuse .endInText
  | some 0x75 => numberedEscape
  | some b =>
    match letterEscape? b with
    | some c => pure c
    | none => refuse .badEscape

/-- A byte that stands for itself in a string: no quote, no backslash and no control. -/
def isPlain (b : UInt8) : Bool :=
  0x20 ≤ b && b != 0x22 && b != 0x5c

def plainFrom (position : Position) : List UInt8 → List UInt8 × Cursor
  | [] => ([], ⟨[], position⟩)
  | b :: rest =>
    if isPlain b then
      let (run, c) := plainFrom (position.after b) rest
      (b :: run, c)
    else ([], ⟨b :: rest, position⟩)

/-- The characters of a run that began at `start`. -/
def decodeRun (start : Position) (run : List UInt8) : Reader (List Char) :=
  match Utf8.fault? run, Utf8.decode? run with
  | none, some chars => pure chars
  | fault, _ =>
    let size := (fault.map (·.validUpTo)).getD 0 + 1
    fail ⟨.badCharacter, some ((run.take size).foldl Position.after start)⟩

/-- A run of plain bytes and what ends it; `seen` holds the characters before, last one first. -/
def textStep (seen : List Char) : Reader (List Char ⊕ List Char) := fun c =>
  let (run, behind) := plainFrom c.position c.rest
  (do
    match ← next with
    | none => refuse .endInText
    | some 0x22 => do
      let chars ← decodeRun c.position run
      pure (.inr (seen.reverse ++ chars))
    | some 0x5c => do
      let chars ← decodeRun c.position run
      let escaped ← escape
      pure (.inl (escaped :: (chars.reverse ++ seen)))
    | some _ => refuse .controlInText : Reader (List Char ⊕ List Char)) behind

def text : Reader String := do
  let chars ← loop textStep []
  pure (String.ofList chars)

end Reader

end ChainHead.Json
