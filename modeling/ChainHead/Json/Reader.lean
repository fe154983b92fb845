import ChainHead.Json.Fault

/-! Readers of JSON text. A reader goes over the bytes from left to right and answers with a value or a
refusal; in both cases it tells how far it went, because the refusal of a value that is known to be
wrong is placed only behind the end of that value. A step that is repeated reads at least one byte each time,
so it is not repeated more often than there are bytes left. -/

namespace ChainHead.Json

structure Cursor where
  rest : List UInt8
  position : Position
deriving DecidableEq, Repr

def Cursor.start (text : List UInt8) : Cursor := ⟨text, .first⟩

/-- The cursor behind the next byte, or at the end. -/
def Cursor.next (c : Cursor) : Cursor :=
  match c.rest with
  | [] => c
  | b :: rest => ⟨rest, c.position.after b⟩

/-- The answer of a reader, with the cursor where it stopped. -/
inductive Reply (α : Type) where
  | done (value : α) (rest : Cursor)
  | failed (failure : Failure) (rest : Cursor)
deriving DecidableEq, Repr

def Reader (α : Type) := Cursor → Reply α

namespace Reader

variable {α β : Type}

instance : Monad Reader where
  pure a := fun c => .done a c
  bind r f := fun c =>
    match r c with
    | .done a c' => f a c'
    | .failed e c' => .failed e c'

@[simp] theorem pure_apply (a : α) (c : Cursor) : (pure a : Reader α) c = .done a c := rfl

theorem bind_apply (r : Reader α) (f : α → Reader β) (c : Cursor) :
    (r >>= f) c = match r c with
      | .done a c' => f a c'
      | .failed e c' => .failed e c' := rfl

theorem bind_done {r : Reader α} {f : α → Reader β} {c c' : Cursor} {a : α}
    (h : r c = .done a c') : (r >>= f) c = f a c' := by
  rw [bind_apply, h]

theorem bind_failed {r : Reader α} {f : α → Reader β} {c c' : Cursor} {e : Failure}
    (h : r c = .failed e c') : (r >>= f) c = .failed e c' := by
  rw [bind_apply, h]

/-- The next byte, which stays unread. -/
def peek : Reader (Option UInt8) := fun c => .done c.rest.head? c

def eat : Reader Unit := fun c => .done () c.next

def next : Reader (Option UInt8) := fun c => .done c.rest.head? c.next

def refuse (reason : Reason) : Reader α := fun c => .failed ⟨reason, some c.position⟩ c

/-- Refuses because of the next byte; the place is behind that byte. -/
def refuseNext (reason : Reason) : Reader α := fun c => .failed ⟨reason, some c.next.position⟩ c

def refuseValue (reason : Reason) : Reader α := fun c => .failed ⟨reason, none⟩ c

def fail (e : Failure) : Reader α := fun c => .failed e c

def attempt (r : Reader α) : Reader (Except Failure α) := fun c =>
  match r c with
  | .done a c' => .done (.ok a) c'
  | .failed e c' => .done (.error e) c'

/-- Gives a refusal without a place the place where the reader stopped. -/
def located (r : Reader α) : Reader α := fun c =>
  match r c with
  | .failed ⟨reason, none⟩ c' => .failed ⟨reason, some c'.position⟩ c'
  | reply => reply

/-- Runs the inside of a list or a record and then its end, whatever the inside answered. The refusal
of the inside comes first. -/
def enclosed (inside : Reader α) (close : Reader Unit) : Reader α := do
  match ← attempt inside with
  | .ok a => close; pure a
  | .error e => discard (attempt close); fail e

/-- Rounds of a step, as many as there are bytes in `fuel` at most. -/
def iterate (step : α → Reader (α ⊕ β)) : List UInt8 → α → Reader β
  | [], _ => refuse .endInValue
  | _ :: fuel, s => do
    match ← step s with
    | .inl s' => iterate step fuel s'
    | .inr b => pure b

/-- Repeats a step until it answers. There are as many rounds as bytes are left, and one more, at most. -/
def loop (step : α → Reader (α ⊕ β)) (s : α) : Reader β := fun c =>
  iterate step (0 :: c.rest) s c

end Reader

def isBlank (b : UInt8) : Bool :=
  b == 0x20 || b == 0x0a || b == 0x0d || b == 0x09

def skipBlanksFrom (position : Position) : List UInt8 → Cursor
  | [] => ⟨[], position⟩
  | b :: rest => if isBlank b then skipBlanksFrom (position.after b) rest else ⟨b :: rest, position⟩

def Reader.blanks : Reader Unit := fun c => .done () (skipBlanksFrom c.position c.rest)

def Reader.ahead : Reader (Option UInt8) := do
  blanks
  peek

/-- Reads the rest of one of the words `null`, `true` and `false`. -/
def Reader.word : List UInt8 → Reader Unit
  | [] => pure ()
  | expected :: rest => do
    match ← next with
    | none => refuse .endInValue
    | some b => if b = expected then word rest else refuse .noWord

/-- Reads a run of decimal digits, as their values. -/
def digitsFrom (position : Position) : List UInt8 → List Nat × Cursor
  | [] => ([], ⟨[], position⟩)
  | b :: rest =>
    if 0x30 ≤ b && b ≤ 0x39 then
      let (digits, c) := digitsFrom (position.after b) rest
      ((b - 0x30).toNat :: digits, c)
    else ([], ⟨b :: rest, position⟩)

/-- Reads a run of decimal digits, as their values. -/
def Reader.digits : Reader (List Nat) := fun c =>
  let (digits, c') := digitsFrom c.position c.rest
  .done digits c'

end ChainHead.Json
