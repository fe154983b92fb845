import ChainHead.Text.Hex

/-! Percent-encoding. Each part of a URL has its own set of characters that can not stand for themselves;
a character outside ASCII never can. The sets grow from one another, so what is safe in a larger set
is safe in the smaller one. -/

namespace ChainHead.Percent

def digit (n : Nat) : Char := (Nat.digitChar n).toUpper

def byte (b : UInt8) : List Char :=
  ['%', digit (b.toNat / 16), digit (b.toNat % 16)]

/-- One character, by its bytes if it is outside ASCII or in the given set. -/
def escape (set : Char → Bool) (c : Char) : List Char :=
  if 0x80 ≤ c.toNat || set c then (String.utf8EncodeChar c).flatMap byte else [c]

def encode (set : Char → Bool) (text : List Char) : List Char :=
  text.flatMap (escape set)

/-- The bytes of a text in which `%` and two digits stand for a byte. Any other `%` stands for itself. -/
def decode : List UInt8 → List UInt8
  | 0x25 :: a :: b :: rest =>
    match Hex.digit? a, Hex.digit? b with
    | some x, some y => (x * 16 + y) :: decode rest
    | _, _ => 0x25 :: decode (a :: b :: rest)
  | b :: rest => b :: decode rest
  | [] => []

def inControls (c : Char) : Bool := c.toNat < 0x20 || c.toNat == 0x7f

def inFragment (c : Char) : Bool := inControls c || [' ', '"', '<', '>', '\x60'].contains c

def inPath (c : Char) : Bool := inFragment c || ['#', '?', '\x7b', '\x7d'].contains c

def inUser (c : Char) : Bool :=
  inPath c || ['/', ':', ';', '=', '@', '[', '\\', ']', '^', '|'].contains c

def inQuery (c : Char) : Bool := inControls c || [' ', '"', '#', '<', '>'].contains c

def inSpecialQuery (c : Char) : Bool := inQuery c || c == '\''

/-- The set of a name or value in a query of parameters: all but letters, digits and `*-._`. A blank is
written as a plus sign. -/
def inParameter (c : Char) : Bool :=
  !(c.isAlphanum || ['*', '-', '.', '_'].contains c)

def parameter (text : List Char) : List Char :=
  text.flatMap fun c => if c = ' ' then ['+'] else escape inParameter c

theorem escape_of_safe {set : Char → Bool} {c : Char} (hc : c.toNat < 0x80) (h : set c = false) :
    escape set c = [c] := by
  simp [escape, h]; omega

theorem encode_of_safe {set : Char → Bool} {text : List Char}
    (h : ∀ c ∈ text, c.toNat < 0x80 ∧ set c = false) : encode set text = text := by
  induction text with
  | nil => rfl
  | cons c rest ih =>
    rw [encode, List.flatMap_cons, escape_of_safe (h c (by simp)).1 (h c (by simp)).2]
    exact congrArg (c :: ·) (ih fun d hd => h d (by simp [hd]))

end ChainHead.Percent
