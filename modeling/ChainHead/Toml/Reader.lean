import ChainHead.Toml.Node

/-! Readers of TOML text, and the blanks, comments and line ends between its values. A reader goes over the
characters from left to right and counts bytes. `loop` repeats a step as long as characters are left. -/

namespace ChainHead.Toml

/-- The unread characters, and the number of bytes before them. -/
structure Source where
  offset : Nat
  rest : List Char

abbrev Reader := StateT Source (Except Fault)

namespace Reader

variable {α β : Type}

/-- The next character, which stays unread. -/
def peek : Reader (Option Char) := do return (← get).rest.head?

def sees (text : List Char) : Reader Bool := do return text.isPrefixOf (← get).rest

def eat (n : Nat) : Reader Unit :=
  modify fun s => ⟨s.offset + (Utf8.encode (s.rest.take n)).length, s.rest.drop n⟩

def accept (text : List Char) : Reader Bool := do
  if ← sees text then
    eat text.length
    return true
  return false

def takeWhile (p : Char → Bool) : Reader (List Char) := do
  let taken := (← get).rest.takeWhile p
  eat taken.length
  return taken

def refuse (f : Flaw) : Reader α := fun s =>
  .error ⟨.flaw f, ⟨s.offset, s.offset + (s.rest.head?.map Char.utf8Size).getD 0⟩⟩

def mismatch (what : String) (expected : List String) : Reader α :=
  refuse (.mismatch (some what) expected)

def spanned (r : Reader α) : Reader (Span × α) := do
  let start := (← get).offset
  let a ← r
  return (⟨start, (← get).offset⟩, a)

/-- Rounds of a step, as many as there are characters in `fuel` at most. -/
def iterate (step : α → Reader (α ⊕ β)) : List Char → α → Reader β
  | [], _ => refuse .tooDeep
  | _ :: fuel, a => do
    match ← step a with
    | .inl next => iterate step fuel next
    | .inr b => return b

/-- Repeats a step until it answers. There are as many rounds as characters are left, and one more, at
most. -/
def loop (step : α → Reader (α ⊕ β)) (a : α) : Reader β := do
  iterate step (' ' :: (← get).rest) a

def isBlank (c : Char) : Bool := c == ' ' || c == '\t'

def blanks : Reader Unit := discard (takeWhile isBlank)

def isPlain (c : Char) : Bool := c == '\t' || (' ' ≤ c && c != '\x7f')

def newline : Reader Bool := do
  if ← accept ['\n'] then return true
  accept ['\r', '\n']

def comment : Reader Unit := discard (takeWhile isPlain)

def lineEnd : Reader Unit := do
  if (← peek).isSome then
    if !(← newline) then refuse (.mismatch none ["newline", "`#`"])

def lineRest : Reader Unit := do
  blanks
  if (← peek) = some '#' then comment
  lineEnd

/-- Passes over blanks, line ends and comments. -/
def space : Reader Unit :=
  loop (fun (_ : Unit) => do
    blanks
    if (← peek) = some '#' then
      comment
      return .inl ()
    if ← newline then return .inl ()
    return .inr ()) ()

end Reader

end ChainHead.Toml
