/-! UTF-8 between characters and bytes. Writing is one table per character. Reading cuts any bytes
into pieces: a piece is a character, or the longest beginning of a character that its next byte
breaks off. All readers are views of that one cut: `decode` accepts it when every piece is a
character, `decodeLossy` puts a replacement character for each of the others, and `fault?` says
where the first of them stands. -/

namespace ChainHead.Utf8

def encode (text : List Char) : List UInt8 :=
  text.flatMap String.utf8EncodeChar

@[simp] theorem encode_nil : encode [] = [] := rfl

@[simp] theorem encode_append (left right : List Char) :
    encode (left ++ right) = encode left ++ encode right := by
  simp [encode]

@[simp] theorem encode_cons (c : Char) (text : List Char) :
    encode (c :: text) = String.utf8EncodeChar c ++ encode text := by
  simp [encode]

/-- One piece of a byte string: a character, bytes that can not be continued to one, or a character
that the end of the input cuts short. -/
inductive Piece where
  | char (c : Char)
  | broken (size : Nat)
  | cut (size : Nat)
deriving DecidableEq, Repr

def Piece.size : Piece → Nat
  | .char c => c.utf8Size
  | .broken size => size
  | .cut size => size

/-- A character of which only the first `seen` bytes are read. Its next byte has to lie between
`low` and `high`; `missing` bytes are to come, and `code` holds the bits so far. -/
structure Pending where
  seen : Nat
  missing : Nat
  low : UInt8
  high : UInt8
  code : Nat
deriving DecidableEq, Repr

/-- What a first byte opens. The bounds of the second byte leave out overlong spellings, surrogates
and values above the last code point. -/
def start (a : UInt8) : Piece ⊕ Pending :=
  if a < 0x80 then .inl (.char (Char.ofNat a.toNat))
  else if a < 0xc2 then .inl (.broken 1)
  else if a < 0xe0 then .inr ⟨1, 1, 0x80, 0xbf, a.toNat % 32⟩
  else if a < 0xf0 then
    .inr ⟨1, 2, if a = 0xe0 then 0xa0 else 0x80, if a = 0xed then 0x9f else 0xbf, a.toNat % 16⟩
  else if a < 0xf5 then
    .inr ⟨1, 3, if a = 0xf0 then 0x90 else 0x80, if a = 0xf4 then 0x8f else 0xbf, a.toNat % 8⟩
  else .inl (.broken 1)

def Pending.fits (p : Pending) (a : UInt8) : Bool :=
  p.low ≤ a && a ≤ p.high

/-- The character with one more byte, finished or not. -/
def Pending.push (p : Pending) (a : UInt8) : Piece ⊕ Pending :=
  let code := p.code * 64 + a.toNat % 64
  if p.missing ≤ 1 then .inl (.char (Char.ofNat code))
  else .inr ⟨p.seen + 1, p.missing - 1, 0x80, 0xbf, code⟩

/-- Cuts bytes into pieces, behind the beginning of a character if there is one. A byte that breaks
a character off opens the next piece. -/
def piecesFrom : Option Pending → List UInt8 → List Piece
  | none, [] => []
  | some p, [] => [.cut p.seen]
  | none, a :: rest =>
    match start a with
    | .inl piece => piece :: piecesFrom none rest
    | .inr p => piecesFrom (some p) rest
  | some p, a :: rest =>
    if p.fits a then
      match p.push a with
      | .inl piece => piece :: piecesFrom none rest
      | .inr q => piecesFrom (some q) rest
    else
      .broken p.seen ::
        match start a with
        | .inl piece => piece :: piecesFrom none rest
        | .inr q => piecesFrom (some q) rest

def pieces (bytes : List UInt8) : List Piece :=
  piecesFrom none bytes

/-- Where bytes stop being UTF-8: the number of good bytes before, and the number of bytes to
blame; none when the input ends inside a character. -/
structure Fault where
  validUpTo : Nat
  blamed : Option Nat
deriving DecidableEq, Repr

/-- The first piece that is no character, looked for behind `before` good bytes. -/
def faultFrom (before : Nat) : List Piece → Option Fault
  | [] => none
  | .char c :: rest => faultFrom (before + c.utf8Size) rest
  | .broken size :: _ => some ⟨before, some size⟩
  | .cut _ :: _ => some ⟨before, none⟩

def fault? (bytes : List UInt8) : Option Fault :=
  faultFrom 0 (pieces bytes)

/-- The character of a piece, if it is one. -/
def Piece.char? : Piece → Option Char
  | .char c => some c
  | _ => none

def decode? (bytes : List UInt8) : Option (List Char) :=
  (pieces bytes).mapM Piece.char?

/-- The text of any bytes, with U+FFFD for each piece that is no character. -/
def decodeLossy (bytes : List UInt8) : List Char :=
  (pieces bytes).map fun piece => piece.char?.getD '\uFFFD'

end ChainHead.Utf8
