import ChainHead.Proofs.Json.Text

/-! The grammar of JSON, as predicates of bytes that mention no reader: numbers, what may stand between the quotes of a
string, values, and records by their members. Blanks may stand around every value and every key. A string of the grammar
need not stand for a text: its escapes may name a lone surrogate, and its bytes may be no UTF-8. What it stands for, if
for anything, is a relation of its own. -/

namespace ChainHead.Json

/-! ### Blanks and digits -/

def Blanks (bytes : List UInt8) : Prop := ∀ b ∈ bytes, isBlank b = true

instance (bytes : List UInt8) : Decidable (Blanks bytes) := List.decidableBAll (fun b => isBlank b = true) bytes

theorem blanks_nil : Blanks [] := fun _ h => nomatch h

def isDigit (b : UInt8) : Bool := 0x30 ≤ b && b ≤ 0x39

def Digits (bytes : List UInt8) : Prop := ∀ b ∈ bytes, isDigit b = true

instance (bytes : List UInt8) : Decidable (Digits bytes) := List.decidableBAll (fun b => isDigit b = true) bytes

/-! ### Numbers -/

/-- The whole part of a number. A leading zero stands alone. -/
inductive IsInteger : List UInt8 → Prop
  | zero : IsInteger [0x30]
  | more {b : UInt8} {ds : List UInt8} (hb : (0x31 ≤ b && b ≤ 0x39) = true) (hds : Digits ds) : IsInteger (b :: ds)

inductive IsFraction : List UInt8 → Prop
  | none : IsFraction []
  | digits {ds : List UInt8} (hds : Digits ds) (hne : ds ≠ []) : IsFraction (0x2e :: ds)

inductive IsExponent : List UInt8 → Prop
  | none : IsExponent []
  | digits {mark b : UInt8} {sign ds : List UInt8} (hmark : mark = 0x65 ∨ mark = 0x45)
      (hsign : sign = [] ∨ sign = [0x2b] ∨ sign = [0x2d]) (hb : isDigit b = true) (hds : Digits ds) :
      IsExponent (mark :: (sign ++ b :: ds))

/-- A number without a sign. -/
inductive IsMagnitude : List UInt8 → Prop
  | intro {whole fraction exponent : List UInt8} (hwhole : IsInteger whole) (hfraction : IsFraction fraction)
      (hexponent : IsExponent exponent) : IsMagnitude (whole ++ (fraction ++ exponent))

theorem IsInteger.isMagnitude {digits : List UInt8} (h : IsInteger digits) : IsMagnitude digits := by
  simpa using IsMagnitude.intro h .none .none

/-! ### Strings -/

/-- What may stand between the quotes of a string. -/
inductive IsText : List UInt8 → Prop
  | nil : IsText []
  | plain {b : UInt8} {raw : List UInt8} (hb : Reader.isPlain b = true) (h : IsText raw) : IsText (b :: raw)
  | letter {b : UInt8} {raw : List UInt8} (hb : (Reader.letterEscape? b).isSome = true) (h : IsText raw) :
      IsText (0x5c :: b :: raw)
  | unit {a b c d : UInt8} {raw : List UInt8} (hunit : (Reader.hexUnit? a b c d).isSome = true) (h : IsText raw) :
      IsText (0x5c :: 0x75 :: a :: b :: c :: d :: raw)

theorem isText_append {run raw : List UInt8} (hrun : ∀ b ∈ run, Reader.isPlain b = true) (h : IsText raw) :
    IsText (run ++ raw) := by
  induction run with
  | nil => exact h
  | cons b run ih =>
      obtain ⟨hb, hrun⟩ := List.forall_mem_cons.mp hrun
      exact .plain hb (ih hrun)

/-- The bytes between the quotes of a string stand for a text. Characters stand for themselves, in UTF-8, or are
escaped; the two halves of a surrogate pair are escaped one behind the other. -/
inductive Spells : List UInt8 → List Char → Prop
  | nil : Spells [] []
  | plain {c : Char} {raw : List UInt8} {text : List Char} (hc : isEscaped c = false) (h : Spells raw text) :
      Spells (String.utf8EncodeChar c ++ raw) (c :: text)
  | letter {b : UInt8} {c : Char} {raw : List UInt8} {text : List Char} (hc : Reader.letterEscape? b = some c)
      (h : Spells raw text) : Spells (0x5c :: b :: raw) (c :: text)
  | unit {a b c d : UInt8} {n : Nat} {raw : List UInt8} {text : List Char} (hn : Reader.hexUnit? a b c d = some n)
      (hscalar : n < 0xd800 ∨ 0xdfff < n) (h : Spells raw text) :
      Spells (0x5c :: 0x75 :: a :: b :: c :: d :: raw) (Char.ofNat n :: text)
  | pair {a b c d a' b' c' d' : UInt8} {high low : Nat} {raw : List UInt8} {text : List Char}
      (hhigh : Reader.hexUnit? a b c d = some high) (hlow : Reader.hexUnit? a' b' c' d' = some low)
      (hleads : 0xd800 ≤ high ∧ high < 0xdc00) (htrails : 0xdc00 ≤ low ∧ low < 0xe000) (h : Spells raw text) :
      Spells (0x5c :: 0x75 :: a :: b :: c :: d :: 0x5c :: 0x75 :: a' :: b' :: c' :: d' :: raw)
        (Char.ofNat (0x10000 + (high - 0xd800) * 0x400 + (low - 0xdc00)) :: text)

/-! ### Values -/

/-- A string with these bytes between its quotes. -/
def stringText (raw : List UInt8) : List UInt8 := 0x22 :: (raw ++ [0x22])

/-- A value with the blanks around it. -/
structure Item where
  before : List UInt8
  value : List UInt8
  behind : List UInt8
  blanks_before : Blanks before
  blanks_behind : Blanks behind

def Item.text (i : Item) : List UInt8 := i.before ++ (i.value ++ i.behind)

/-- A value without blanks around it. -/
def Item.bare (value : List UInt8) : Item := ⟨[], value, [], blanks_nil, blanks_nil⟩

@[simp] theorem Item.text_bare (value : List UInt8) : (Item.bare value).text = value := List.append_nil value

/-- A member of a record: a key and a value, with the blanks around both. -/
structure Member where
  before : List UInt8
  key : List UInt8
  gap : List UInt8
  item : Item
  blanks_before : Blanks before
  isText_key : IsText key
  blanks_gap : Blanks gap

def Member.text (m : Member) : List UInt8 := m.before ++ (stringText m.key ++ (m.gap ++ 0x3a :: m.item.text))

/-- The member behind its key, without the blanks behind its value. -/
def Member.tail (m : Member) : List UInt8 := m.gap ++ 0x3a :: (m.item.before ++ m.item.value)

/-- An entry of a list or record: what leads to its value, and the value. -/
structure Entry where
  front : List UInt8
  item : Item

namespace Entry

def text (e : Entry) : List UInt8 := e.front ++ e.item.text

/-- The text of an entry without the blanks behind its value. -/
def body (e : Entry) : List UInt8 := e.front ++ (e.item.before ++ e.item.value)

theorem text_eq (e : Entry) : e.text = e.body ++ e.item.behind := by
  simp [text, body, Item.text]

def ofItem (i : Item) : Entry := ⟨[], i⟩

def ofMember (m : Member) : Entry := ⟨m.before ++ (stringText m.key ++ (m.gap ++ [0x3a])), m.item⟩

theorem body_ofMember (m : Member) : (ofMember m).body = m.before ++ (stringText m.key ++ m.tail) := by
  simp [body, ofMember, Member.tail]

theorem map_text_ofItem (items : List Item) : (items.map ofItem).map text = items.map Item.text := by
  rw [List.map_map]
  rfl

theorem map_text_ofMember (members : List Member) : (members.map ofMember).map text = members.map Member.text := by
  rw [List.map_map]
  refine List.map_congr_left fun m _ => ?_
  simp [Member.text, text, ofMember]

end Entry

/-- Texts, each behind a comma. -/
def trail (texts : List (List UInt8)) : List UInt8 := texts.flatMap (0x2c :: ·)

/-- Texts with commas between them. -/
def joined : List (List UInt8) → List UInt8
  | [] => []
  | text :: more => text ++ trail more

/-- Texts with commas between them, or each behind a comma if they follow a value. -/
def follow (behindValue : Bool) (texts : List (List UInt8)) : List UInt8 :=
  if behindValue then trail texts else joined texts

theorem follow_cons (behindValue : Bool) (text : List UInt8) (more : List (List UInt8)) :
    follow behindValue (text :: more) = (if behindValue then [0x2c] else []) ++ (text ++ follow true more) := by
  cases behindValue <;> simp [follow, joined, trail]

def listText (gap : List UInt8) (items : List Item) : List UInt8 :=
  0x5b :: (gap ++ (joined (items.map Item.text) ++ [0x5d]))

def recordText (gap : List UInt8) (members : List Member) : List UInt8 :=
  0x7b :: (gap ++ (joined (members.map Member.text) ++ [0x7d]))

def words : List (List UInt8) :=
  [[0x6e, 0x75, 0x6c, 0x6c], [0x74, 0x72, 0x75, 0x65], [0x66, 0x61, 0x6c, 0x73, 0x65]]

/-- A value, of any depth, without blanks around it. -/
inductive IsValue : List UInt8 → Prop
  | word {word : List UInt8} (h : word ∈ words) : IsValue word
  | number {digits : List UInt8} (h : IsMagnitude digits) : IsValue digits
  | negative {digits : List UInt8} (h : IsMagnitude digits) : IsValue (0x2d :: digits)
  | text {raw : List UInt8} (h : IsText raw) : IsValue (stringText raw)
  | list {gap : List UInt8} {items : List Item} (hgap : Blanks gap) (hitems : ∀ i ∈ items, IsValue i.value) :
      IsValue (listText gap items)
  | record {gap : List UInt8} {members : List Member} (hgap : Blanks gap)
      (hmembers : ∀ m ∈ members, IsValue m.item.value) : IsValue (recordText gap members)

/-- A record text: its members, and the blanks behind its opening. -/
structure Object where
  gap : List UInt8
  members : List Member
  blanks_gap : Blanks gap
  isValue_members : ∀ m ∈ members, IsValue m.item.value

def Object.text (o : Object) : List UInt8 := recordText o.gap o.members

theorem Object.isValue_text (o : Object) : IsValue o.text := .record o.blanks_gap o.isValue_members

/-! ### Where a value begins and ends -/

/-- Whether a value in a list or record may end before some bytes. -/
def endsItem : List UInt8 → Bool
  | [] => true
  | b :: _ => isBlank b || b == 0x2c || b == 0x5d || b == 0x7d

theorem endsItem_blanks_append {bytes rest : List UInt8} (hbytes : Blanks bytes) (hrest : endsItem rest = true) :
    endsItem (bytes ++ rest) = true := by
  cases bytes with
  | nil => exact hrest
  | cons b more => simp [endsItem, hbytes b List.mem_cons_self]

/-- An item may end before what follows it in a list or record. -/
theorem endsItem_follow_append (texts : List (List UInt8)) {b : UInt8} (hb : b = 0x5d ∨ b = 0x7d)
    (rest : List UInt8) : endsItem (follow true texts ++ b :: rest) = true := by
  cases texts with
  | nil => rcases hb with rfl | rfl <;> rfl
  | cons text more => rfl

/-- A byte that is no blank and neither parts nor closes anything. -/
def isOpening (b : UInt8) : Bool := !isBlank b && b != 0x2c && b != 0x5d && b != 0x7d && b != 0x3a

theorem isOpening_of_isDigit {b : UInt8} (h : isDigit b = true) : isOpening b = true := by
  have hne : ∀ c : UInt8, isDigit c = false → b ≠ c := by
    rintro c hc rfl
    rw [hc] at h
    cases h
  simp [isOpening, isBlank, hne 0x20 rfl, hne 0x0a rfl, hne 0x0d rfl, hne 0x09 rfl, hne 0x2c rfl, hne 0x5d rfl,
    hne 0x7d rfl, hne 0x3a rfl]

theorem isDigit_of_first {b : UInt8} (h : (0x31 ≤ b && b ≤ 0x39) = true) : isDigit b = true := by
  simp only [isDigit, Bool.and_eq_true, decide_eq_true_eq, UInt8.le_iff_toNat_le, UInt8.reduceToNat] at h ⊢
  omega

theorem IsMagnitude.exists_cons {bytes : List UInt8} (h : IsMagnitude bytes) :
    ∃ b more, bytes = b :: more ∧ isDigit b = true := by
  obtain ⟨hwhole, -, -⟩ := h
  cases hwhole with
  | zero => exact ⟨_, _, rfl, rfl⟩
  | more hb hds => exact ⟨_, _, rfl, isDigit_of_first hb⟩

theorem IsValue.exists_cons {v : List UInt8} (h : IsValue v) : ∃ b more, v = b :: more ∧ isOpening b = true := by
  cases h with
  | word h =>
      simp only [words, List.mem_cons, List.not_mem_nil, or_false] at h
      rcases h with rfl | rfl | rfl <;> exact ⟨_, _, rfl, rfl⟩
  | number h =>
      obtain ⟨b, more, rfl, hb⟩ := h.exists_cons
      exact ⟨b, more, rfl, isOpening_of_isDigit hb⟩
  | negative h => exact ⟨_, _, rfl, rfl⟩
  | text h => exact ⟨_, _, rfl, rfl⟩
  | list hgap hitems => exact ⟨_, _, rfl, rfl⟩
  | record hgap hmembers => exact ⟨_, _, rfl, rfl⟩

end ChainHead.Json
