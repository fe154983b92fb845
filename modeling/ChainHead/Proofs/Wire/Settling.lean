import ChainHead.Proofs.Json.Passing
import ChainHead.Proofs.Json.Walks
import ChainHead.Wire.Record

/-! Whether a codec takes a value of the grammar depends on nothing that stands behind the value. There is one
exception: behind the bytes that a byte string of a fixed size needs, one more item of its list is read and forgotten if
it is no byte. If that item is a string that stands for no text, the reader loses its place inside it; such a value is
torn. -/

namespace ChainHead.Wire

open Json Reader

variable {α β : Type}

/-! ### Values by their form -/

section

variable {f : α → Reader β} {x : Except Reason α} {v more : List UInt8} {b : UInt8}

theorem settlesItem_judged (x : Except Reason α) : SettlesItem (judged x) [] := by
  cases x with
  | ok a => exact .inl ⟨a, fun _ p _ => ⟨p, rfl⟩⟩
  | error reason => exact .inr (refuses_of_yields (.refuseValue reason) []).item

theorem settlesItem_unexpected (expected : String) (v : List UInt8) :
    SettlesItem (unexpected expected : Reader α) v :=
  .inr (refuses_of_yields (.unexpected expected) v).item

theorem settlesItem_refuseNext (reason : Reason) (v : List UInt8) : SettlesItem (refuseNext reason : Reader α) v :=
  .inr (refuses_of_yields (.refuseNext reason) v).item

theorem isBlank_of_isOpening (hb : isOpening b = true) : isBlank b = false := by
  simp only [isOpening, Bool.and_eq_true, Bool.not_eq_true'] at hb
  exact hb.1.1.1.1

theorem settlesItem_ahead {g : Option UInt8 → Reader α} (hb : isOpening b = true)
    (h : SettlesItem (g (some b)) (b :: more)) : SettlesItem (ahead >>= g) (b :: more) :=
  .of_goesOnItem (goesOn_ahead (isBlank_of_isOpening hb)).item h

theorem settlesItem_eat {g : Unit → Reader α} (h : SettlesItem (g ()) more) : SettlesItem (eat >>= g) (b :: more) :=
  .of_goesOnItem goesOn_eat.item h

/-- A string is taken or refused with its text. -/
theorem settlesItem_text {raw : List UInt8} (h : IsText raw) : SettlesItem Reader.text (raw ++ [0x22]) := by
  by_cases hspelled : ∃ text, Spells raw text
  · obtain ⟨text, hspelled⟩ := hspelled
    rw [← String.toList_ofList (l := text)] at hspelled
    exact .inl ⟨_, (takes_text hspelled).item⟩
  · exact .inr (refuses_text h (not_exists.mp hspelled)).item

/-- The inside of a list and its end are taken or refused, at each number of levels. -/
theorem settlesItem_listOf {levels : Nat} {inside : Nat → Reader α} {gap : List UInt8} {items : List Item}
    (h : ∀ inner, levels = inner + 1 →
      (∃ a, Takes (enclosed (inside inner) endList) (gap ++ (joined (items.map Item.text) ++ [0x5d])) a) ∨
        Refuses (enclosed (inside inner) endList) (gap ++ (joined (items.map Item.text) ++ [0x5d]))) :
    SettlesItem (listOf levels inside) (listText gap items) := by
  cases levels with
  | zero => exact settlesItem_refuseNext _ _
  | succ inner =>
      refine settlesItem_eat ?_
      rcases h inner rfl with ⟨a, htakes⟩ | hrefuses
      · exact .inl ⟨a, htakes.item⟩
      · exact .inr hrefuses.item

theorem ne_of_digit (hb : isDigit b = true) {c : UInt8} (hc : isDigit c = false) : some b ≠ some c :=
  fun heq => ne_of_isDigit hb hc (Option.some.inj heq)

/-! How a value is read by its form: digits as a number, what follows a minus sign as a negative one, what follows a
quote as a text, and the inside of a list with one level less. -/

section

variable {forms : Forms α} {levels : Nat}

theorem goesOn_readForm_number {digits : List UInt8} (h : IsMagnitude digits) :
    GoesOn (readForm forms levels) digits (located (number true >>= fun n => judged (forms.number n))) digits := by
  obtain ⟨b, more, rfl, hb⟩ := h.exists_cons
  refine .located ((goesOn_ahead (isBlank_of_isOpening (isOpening_of_isDigit hb))).trans ?_)
  split
  · rename_i heq
    cases heq
  iterate 4
    · rename_i heq
      exact absurd heq (ne_of_digit hb rfl)
  · rename_i heq
    cases heq
    rw [if_pos (show (0x30 ≤ b && b ≤ 0x39) = true from hb)]
    exact fun rest p => ⟨p, rfl⟩

theorem goesOn_readForm_negative (digits : List UInt8) :
    GoesOn (readForm forms levels) (0x2d :: digits) (located (number false >>= fun n => judged (forms.number n)))
      digits :=
  .located ((goesOn_ahead rfl).trans goesOn_eat)

theorem goesOn_readForm_text (raw : List UInt8) :
    GoesOn (readForm forms levels) (stringText raw) (located (Reader.text >>= fun t => judged (forms.text t)))
      (raw ++ [0x22]) :=
  .located ((goesOn_ahead rfl).trans goesOn_eat)

theorem goesOn_readForm_list (gap : List UInt8) (items : List Item) :
    GoesOn (readForm forms (levels + 1)) (listText gap items) (located (enclosed (forms.list levels) endList))
      (gap ++ (joined (items.map Item.text) ++ [0x5d])) :=
  .located ((goesOn_ahead rfl).trans goesOn_eat)

end

/-- A value that is read by its form is taken or refused, if this is so for the inside of lists. -/
theorem settlesItem_readForm {forms : Forms α} {levels : Nat} (hv : IsValue v)
    (hlist : ∀ gap items, Blanks gap → (∀ i ∈ items, IsValue i.value) → v = listText gap items →
      SettlesItem (listOf levels forms.list) v) :
    SettlesItem (readForm forms levels) v := by
  cases hv with
  | word h =>
      refine .located ?_
      simp only [words, List.mem_cons, List.not_mem_nil, or_false] at h
      rcases h with rfl | rfl | rfl <;> exact settlesItem_ahead rfl (settlesItem_unexpected _ _)
  | number h =>
      refine .of_goesOnItem (goesOn_readForm_number h).item (.located ?_)
      exact (halts_number true h).settlesItem.bind fun n => settlesItem_judged _
  | negative h =>
      refine .of_goesOnItem (goesOn_readForm_negative _).item (.located ?_)
      exact (halts_number false h).settlesItem.bind fun n => settlesItem_judged _
  | text h =>
      refine .of_goesOnItem (goesOn_readForm_text _).item (.located ?_)
      exact (settlesItem_text h).bind fun t => settlesItem_judged _
  | @list gap items hgap hitems => exact .located (settlesItem_ahead rfl (hlist gap items hgap hitems rfl))
  | record hgap hmembers =>
      refine .located (settlesItem_ahead rfl ?_)
      exact .inr (refuses_of_yields (.recordOf fun _ _ => .refuseValue _) _).item

end

/-! ### Bytes -/

/-- What a reader may leave unread of a value it refuses: nothing, or what can not be the end of a list. -/
def Leaves (tail : List UInt8) : Prop := tail = [] ∨ ∃ b more, tail = b :: more ∧ isOpening b = true

theorem stops_unexpected_word (expected : String) {word : List UInt8} (h : word ∈ words) :
    Stops (unexpected expected : Reader α) word [] := by
  have hword (rest : List UInt8) (reason : Reason) :
      Stops (Reader.word rest >>= fun _ => refuseValue reason : Reader α) rest [] :=
    (reads_word rest).takes.item.bind_stops (stops_refuseValue reason [])
  simp only [words, List.mem_cons, List.not_mem_nil, or_false] at h
  rcases h with rfl | rfl | rfl <;> exact .located (stops_peek (stops_eat (hword _ _)))

theorem stops_unexpected_text (expected : String) {raw : List UInt8} {t : String} (h : Spells raw t.toList) :
    Stops (unexpected expected : Reader α) (stringText raw) [] :=
  .located (stops_peek (stops_eat ((takes_text h).item.bind_stops (stops_refuseValue _ []))))

/-- The byte that a number stands for. -/
def judgeByte (n : Number) : Except Reason UInt8 :=
  match n with
  | .natural k => if k < 256 then .ok k.toUInt8 else .error (.wrongValue n.describe "u8")
  | .negative _ => .error (.wrongValue n.describe "u8")
  | .real _ => wrongNumber "u8" n

theorem byte_eq :
    byte = located (do
      match ← ahead with
      | none => refuseNext .endInValue
      | some 0x2d => do
        eat
        judged (judgeByte (← number false))
      | some b =>
        if 0x30 ≤ b && b ≤ 0x39 then do
          judged (judgeByte (← number true))
        else unexpected "u8") := rfl

theorem goesOn_byte_number {digits : List UInt8} (h : IsMagnitude digits) :
    GoesOn byte digits (located (number true >>= fun n => judged (judgeByte n))) digits := by
  obtain ⟨b, more, rfl, hb⟩ := h.exists_cons
  rw [byte_eq]
  refine .located ((goesOn_ahead (isBlank_of_isOpening (isOpening_of_isDigit hb))).trans ?_)
  split
  · rename_i heq
    cases heq
  · rename_i heq
    exact absurd heq (ne_of_digit hb rfl)
  · rename_i heq
    cases heq
    rw [if_pos (show (0x30 ≤ b && b ≤ 0x39) = true from hb)]
    exact fun rest p => ⟨p, rfl⟩

theorem goesOn_byte_negative (digits : List UInt8) :
    GoesOn byte (0x2d :: digits) (located (number false >>= fun n => judged (judgeByte n))) digits :=
  .located ((goesOn_ahead rfl).trans goesOn_eat)

/-- A number is taken as a byte, or refused. -/
theorem takes_or_stops_number (positive : Bool) {digits : List UInt8} (h : IsMagnitude digits) :
    (∃ b, TakesItem (number positive >>= fun n => judged (judgeByte n)) digits b) ∨
      ∃ tail, Leaves tail ∧ Stops (number positive >>= fun n => judged (judgeByte n)) digits tail := by
  rcases halts_number positive h with ⟨n, hn⟩ | ⟨tail, htail, hstops⟩
  · cases hbyte : judgeByte n with
    | ok b =>
        refine .inl ⟨b, hn.bind_nil fun _ p _ => ⟨p, ?_⟩⟩
        rw [hbyte]
        rfl
    | error reason =>
        refine .inr ⟨[], .inl rfl, hn.bind_stops ?_⟩
        rw [hbyte]
        exact stops_refuseValue reason []
  · refine .inr ⟨tail, ?_, hstops.bind _⟩
    cases tail with
    | nil => exact .inl rfl
    | cons b more => exact .inr ⟨b, more, rfl, isOpening_of_isDigit (htail b List.mem_cons_self)⟩

/-- A value that is no string without a text is taken as a byte, or refused without losing the place. -/
theorem takes_or_stops_byte {v : List UInt8} (hv : IsValue v)
    (hspelled : ∀ raw, v = stringText raw → ∃ text, Spells raw text) :
    (∃ b, TakesItem byte v b) ∨ ∃ tail, Leaves tail ∧ Stops byte v tail := by
  cases hv with
  | word h =>
      have hstops := stops_unexpected_word (α := UInt8) "u8" h
      simp only [words, List.mem_cons, List.not_mem_nil, or_false] at h
      rcases h with rfl | rfl | rfl <;> exact .inr ⟨[], .inl rfl, .located (stops_ahead rfl hstops)⟩
  | number h =>
      rcases takes_or_stops_number true h with ⟨n, hn⟩ | ⟨tail, htail, hstops⟩
      · exact .inl ⟨n, .of_goesOnItem (goesOn_byte_number h).item hn.located⟩
      · exact .inr ⟨tail, htail, .of_goesOnItem (goesOn_byte_number h).item hstops.located⟩
  | negative h =>
      rcases takes_or_stops_number false h with ⟨n, hn⟩ | ⟨tail, htail, hstops⟩
      · exact .inl ⟨n, .of_goesOnItem (goesOn_byte_negative _).item hn.located⟩
      · exact .inr ⟨tail, htail, .of_goesOnItem (goesOn_byte_negative _).item hstops.located⟩
  | @text raw h =>
      obtain ⟨text, htext⟩ := hspelled raw rfl
      rw [← String.toList_ofList (l := text)] at htext
      exact .inr ⟨[], .inl rfl, .located (stops_ahead rfl (stops_unexpected_text "u8" htext))⟩
  | @list gap items hgap hitems =>
      refine .inr ⟨listText gap items, .inr ⟨_, _, rfl, rfl⟩, .located (stops_ahead rfl ?_)⟩
      exact .located (stops_peek (stops_refuseValue _ _))
  | @record gap members hgap hmembers =>
      refine .inr ⟨recordText gap members, .inr ⟨_, _, rfl, rfl⟩, .located (stops_ahead rfl ?_)⟩
      exact .located (stops_peek (stops_refuseValue _ _))

theorem settlesItem_byte {v : List UInt8} (hv : IsValue v) : SettlesItem byte v := by
  by_cases hspelled : ∀ raw, v = stringText raw → ∃ text, Spells raw text
  · rcases takes_or_stops_byte hv hspelled with ⟨b, hb⟩ | ⟨tail, -, hstops⟩
    · exact .inl ⟨b, hb⟩
    · exact .inr hstops.refusesItem
  · simp only [not_forall] at hspelled
    obtain ⟨raw, rfl, -⟩ := hspelled
    exact .located (settlesItem_ahead rfl (settlesItem_unexpected "u8" _))

/-! ### Byte strings of a fixed size -/

/-- The bytes that a list needs are read one by one. -/
theorem bytesFrom_succ (refusal : Nat → Reason) (index size : Nat) :
    bytesFrom refusal index (size + 1) = (do
      let b ← itemOr (index == 0) byte (refuseValue (refusal index))
      let bytes ← bytesFrom refusal (index + 1) size
      pure (b :: bytes)) := by
  rw [bytesFrom, itemOr, bind_assoc]
  congr 1
  funext more
  cases more <;> rfl

section

variable {front back items : List Item} {bytes : List UInt8} {size : Nat}

theorem walks_bytesFrom (hvalue : ∀ i ∈ front, IsValue i.value) (h : TakesItems byte front bytes)
    (refusal : Nat → Reason) (index : Nat) (back : List Item) :
    Walks (bytesFrom refusal index front.length) ⟨index != 0, front ++ back⟩ bytes
      ⟨index + front.length != 0, back⟩ := by
  induction h generalizing index with
  | nil => exact walks_pure _ _
  | @cons i b front bytes hb hfront ih =>
      obtain ⟨hi, hvalue⟩ := List.forall_mem_cons.mp hvalue
      have hmore := ih hvalue (index + 1)
      rw [Nat.add_right_comm, Nat.add_assoc] at hmore
      rw [List.length_cons, bytesFrom_succ]
      exact (walks_itemOr (by simp [bne]) hi hb).bind (hmore.bind (walks_pure _ _))

/-- With too few items, or one among them that is no byte, a list is refused. -/
theorem balks_bytesFrom (hvalue : ∀ i ∈ front, IsValue i.value) (h : TakesItems byte front bytes)
    (hback : back = [] ∨ ∃ i more, back = i :: more ∧ IsValue i.value ∧ RefusesItem byte i.value)
    (refusal : Nat → Reason) (index left : Nat) :
    Balks (bytesFrom refusal index (front.length + (left + 1))) ⟨index != 0, front ++ back⟩ := by
  induction h generalizing index with
  | nil =>
      rw [List.length_nil, Nat.zero_add, bytesFrom_succ]
      rcases hback with rfl | ⟨i, more, rfl, hi, hrefuses⟩
      · exact (balks_itemOr_end (balks_of_yields (.refuseValue _) _)).bind _
      · exact (balks_itemOr (by simp [bne]) hi hrefuses).bind _
  | @cons i b front bytes hb hfront ih =>
      obtain ⟨hi, hvalue⟩ := List.forall_mem_cons.mp hvalue
      rw [List.length_cons, Nat.add_right_comm, bytesFrom_succ]
      exact (walks_itemOr (by simp [bne]) hi hb).bind_balks ((ih hvalue (index + 1)).bind _)

/-- The bytes that are needed are at the beginning of a list, or the list is refused. -/
theorem takesItems_or_balks_bytesFrom (size : Nat) (hvalue : ∀ i ∈ items, IsValue i.value) (refusal : Nat → Reason) :
    (∃ bytes, bytes.length = size ∧ TakesItems byte (items.take size) bytes ∧
      Walks (bytesFrom refusal 0 size) ⟨false, items⟩ bytes ⟨size != 0, items.drop size⟩) ∨
      Balks (bytesFrom refusal 0 size) ⟨false, items⟩ := by
  have hfront : ∀ i ∈ items.take size, IsValue i.value := fun i hi => hvalue i (List.mem_of_mem_take hi)
  have hsettles : ∀ i ∈ items.take size, SettlesItem byte i.value := fun i hi => settlesItem_byte (hfront i hi)
  rcases exists_takesItems_or hsettles with ⟨bytes, hbytes⟩ | ⟨front, i, back, bytes, hsplit, hbytes, hi⟩
  · by_cases hsize : size ≤ items.length
    · have hlength : (items.take size).length = size := List.length_take_of_le hsize
      have hwalks := walks_bytesFrom hfront hbytes refusal 0 (items.drop size)
      rw [List.take_append_drop, hlength, Nat.zero_add] at hwalks
      exact .inl ⟨bytes, (List.Forall₂.length_eq hbytes).symm.trans hlength, hbytes, hwalks⟩
    · obtain ⟨left, rfl⟩ : ∃ left, size = items.length + (left + 1) := ⟨size - items.length - 1, by omega⟩
      rw [List.take_of_length_le (by omega)] at hbytes
      have hbalks := balks_bytesFrom hvalue hbytes (.inl rfl) refusal 0 left
      rw [List.append_nil] at hbalks
      exact .inr hbalks
  · have hlength : front.length < size := by
      have := congrArg List.length hsplit
      simp only [List.length_take, List.length_append, List.length_cons] at this
      omega
    obtain ⟨left, rfl⟩ : ∃ left, size = front.length + (left + 1) := ⟨size - front.length - 1, by omega⟩
    obtain ⟨more, hitems⟩ : ∃ more, items = front ++ i :: more := by
      refine ⟨back ++ items.drop (front.length + (left + 1)), ?_⟩
      rw [← List.cons_append, ← List.append_assoc, ← hsplit, List.take_append_drop]
    have hi' : IsValue i.value := hfront i (hsplit ▸ List.mem_append_right _ List.mem_cons_self)
    have hfront' : ∀ j ∈ front, IsValue j.value := fun j hj => hfront j (hsplit ▸ List.mem_append_left _ hj)
    have hbalks := balks_bytesFrom hfront' hbytes (.inr ⟨i, more, rfl, hi', hi⟩) refusal 0 left
    rw [← hitems] at hbalks
    exact .inr hbalks

/-- What a reader of a fixed number of bytes makes of the rest of the list. -/
def surplus (size : Nat) (bytes : List UInt8) : Reader (List UInt8) := do
  let more := itemOr (size == 0) (do
    discard byte
    pure true) (pure false)
  match ← attempt more with
  | .ok true => refuseValue (.wrongLength (size + 1) ("exactly " ++ toString size ++ " bytes"))
  | _ => pure bytes

theorem sizedBytes_eq (size : Nat) :
    sizedBytes size = (do
      let bytes ← bytesFrom (fun found => .wrongLength found ("exactly " ++ toString size ++ " bytes")) 0 size
      surplus size bytes) := rfl

theorem settlesInside_surplus (size : Nat) (bytes : List UInt8) (hvalue : ∀ i ∈ items, IsValue i.value)
    (hspelled : ∀ i ∈ items.head?, ∀ raw, i.value = stringText raw → ∃ text, Spells raw text) :
    SettlesInside (surplus size bytes) ⟨size != 0, items⟩ := by
  cases items with
  | nil =>
      refine .inl ⟨bytes, ⟨size != 0, []⟩, (fun _ h => nomatch h), ?_⟩
      exact (walks_itemOr_end (walks_pure false _)).attempt.bind (walks_pure bytes _)
  | cons i items =>
      obtain ⟨hi, hvalue⟩ := List.forall_mem_cons.mp hvalue
      have hfirst : (size == 0) = !(size != 0) := by simp [bne]
      rcases takes_or_stops_byte hi (hspelled i rfl) with ⟨b, hb⟩ | ⟨tail, htail, hstops⟩
      · have hmore : TakesItem (do
            discard byte
            pure true) i.value true := (hb.map fun _ => ()).bind_nil fun _ p _ => ⟨p, rfl⟩
        exact .inr (.inl ((walks_itemOr hfirst hi hmore).attempt.bind_balks (balks_of_yields (.refuseValue _) _)))
      · -- what was read of the item is forgotten, but not unread
        have hdone (pre rest : List UInt8) (p : Position) (hpre : Blanks pre) :
            ∃ q, surplus size bytes ⟨pre ++ ((Inside.mk (size != 0) (i :: items)).text ++ rest), p⟩ =
              .done bytes ⟨tail ++ (i.behind ++ ((Inside.mk true items).text ++ rest)), q⟩ := by
          obtain ⟨q, hitem⟩ := itemOr_item (do
            discard byte
            pure true) (pure false) items hfirst hi hpre rest p
          obtain ⟨e, q', hfailed⟩ := ((hstops.bind _).bind _) (i.behind ++ ((Inside.mk true items).text ++ rest)) q
            (endsItem_blanks_append i.blanks_behind (Inside.endsItem_text items rest))
          exact ⟨q', bind_done (attempt_failed (hitem.trans hfailed))⟩
        rcases htail with rfl | ⟨b, more, rfl, hb⟩
        · refine .inl ⟨bytes, ⟨true, items⟩, hvalue, fun pre rest p hpre => ?_⟩
          obtain ⟨q, hdone⟩ := hdone pre rest p hpre
          exact ⟨i.behind, q, i.blanks_behind, hdone⟩
        · refine .inr (.inr ⟨bytes, fun pre rest p hpre => ?_⟩)
          obtain ⟨q, hdone⟩ := hdone pre rest p hpre
          exact ⟨b, _, q, hb, hdone⟩

/-- A list is read as a fixed number of bytes or refused, if the item behind them does not tear it. -/
theorem settlesInside_sizedBytes (size : Nat) (hvalue : ∀ i ∈ items, IsValue i.value)
    (hspelled : ∀ bytes, TakesItems byte (items.take size) bytes → ∀ i ∈ items[size]?, ∀ raw,
      i.value = stringText raw → ∃ text, Spells raw text) :
    SettlesInside (sizedBytes size) ⟨false, items⟩ := by
  rw [sizedBytes_eq]
  rcases takesItems_or_balks_bytesFrom size hvalue
    (fun found => .wrongLength found ("exactly " ++ toString size ++ " bytes")) with
    ⟨bytes, -, hbytes, hwalks⟩ | hbalks
  · refine hwalks.bind_settles (settlesInside_surplus size bytes ?_ ?_)
    · exact fun i hi => hvalue i (List.mem_of_mem_drop hi)
    · rw [List.head?_drop]
      exact hspelled bytes hbytes
  · exact .inr (.inl (hbalks.bind _))

end

end ChainHead.Wire
