import ChainHead.Proofs.Wire.Settling

/-! The codecs of all kinds settle on every value of the grammar that is not torn: with so many levels left, they take
it whatever stands behind it, or refuse it. What a value decodes to by itself is therefore what it is taken as inside
other values. -/

namespace ChainHead.Wire

open Json Reader

variable {α β : Type}

/-! ### Torn values -/

/-- A field of a record, with its place among the fields. -/
inductive Fields.Has {β : Type} (name : String) (codec : Codec β) : {τ : Type} → Fields τ → Nat → Prop
  | here {γ : Type} {absence : Absence β} {others : Fields γ} : Has name codec (.cons name codec absence others) 0
  | there {β' γ : Type} {other : String} {c : Codec β'} {absence : Absence β'} {others : Fields γ} {place : Nat}
      (h : Has name codec others place) : Has name codec (.cons other c absence others) (place + 1)

/-- Somewhere in a value, in a list that is given for a byte string of a fixed size, the item right behind the bytes
that are needed is a string that stands for no text. -/
inductive Torn : {α : Type} → Codec α → List UInt8 → Prop
  | bytes {size : Nat} {gap : List UInt8} {items : List Item} {bytes : List UInt8} {i : Item} {raw : List UInt8}
      (hbytes : TakesItems byte (items.take size) bytes) (hi : items[size]? = some i)
      (hvalue : i.value = stringText raw) (hraw : ∀ text, ¬Spells raw text) : Torn (fixed size) (listText gap items)
  | optional {α : Type} {c : Codec α} {v : List UInt8} (h : Torn c v) : Torn (optional c) v
  | item {α : Type} {c : Codec α} {gap : List UInt8} {items : List Item} {i : Item} (hi : i ∈ items)
      (h : Torn c i.value) : Torn (list c) (listText gap items)
  | member {α τ β : Type} {name key : String} {fs : Fields τ} {make : τ → α} {parts : α → τ} {codec : Codec β}
      {place : Nat} {gap : List UInt8} {members : List Member} {m : Member} (hfield : fs.Has key codec place)
      (hm : m ∈ members) (hkey : Spells m.key key.toList) (h : Torn codec m.item.value) :
      Torn (record name fs make parts) (recordText gap members)
  | place {α τ β : Type} {name key : String} {fs : Fields τ} {make : τ → α} {parts : α → τ} {codec : Codec β}
      {place : Nat} {gap : List UInt8} {items : List Item} {i : Item} (hfield : fs.Has key codec place)
      (hi : items[place]? = some i) (h : Torn codec i.value) : Torn (record name fs make parts) (listText gap items)

theorem mem_recordText {gap : List UInt8} {members : List Member} {m : Member} (hm : m ∈ members) {b : UInt8}
    (hb : b ∈ m.item.value) : b ∈ recordText gap members := by
  have htext : b ∈ m.text := by simp [Member.text, Item.text, hb]
  have hjoined : b ∈ joined (members.map Member.text) := by
    have hmem : m.text ∈ members.map Member.text := List.mem_map_of_mem hm
    generalize members.map Member.text = texts at hmem
    cases texts with
    | nil => cases hmem
    | cons text more =>
        rcases List.mem_cons.mp hmem with heq | hmem
        · exact List.mem_append_left _ (heq ▸ htext)
        · exact List.mem_append_right _ (List.mem_flatMap.mpr ⟨_, hmem, List.mem_cons_of_mem _ htext⟩)
  simp [recordText, hjoined]

/-- There is a list in what is torn. -/
theorem mem_of_torn {c : Codec α} {v : List UInt8} (h : Torn c v) : 0x5b ∈ v := by
  induction h with
  | bytes => exact List.mem_cons_self
  | optional _ ih => exact ih
  | item => exact List.mem_cons_self
  | member _ hm _ _ ih => exact mem_recordText hm ih
  | place => exact List.mem_cons_self

/-- A codec takes or refuses every value that is not torn, whatever stands behind it. -/
structure Codec.Settles (c : Codec α) : Prop where
  skipsBlanks : ∀ levels, SkipsBlanks (c.read levels)
  settlesItem : ∀ levels {v : List UInt8}, IsValue v → ¬Torn c v → SettlesItem (c.read levels) v

/-! ### Strings, flags and numbers -/

theorem skipsBlanks_readForm (forms : Forms α) (levels : Nat) : SkipsBlanks (readForm forms levels) :=
  (skipsBlanks_ahead _).located

theorem settlesItem_textRead {v : List UInt8} (hv : IsValue v) (levels : Nat) : SettlesItem (text.read levels) v := by
  refine .located ?_
  cases hv with
  | word h =>
      simp only [words, List.mem_cons, List.not_mem_nil, or_false] at h
      rcases h with rfl | rfl | rfl <;> exact settlesItem_ahead rfl (settlesItem_unexpected _ _)
  | number h =>
      obtain ⟨b, more, rfl, hb⟩ := h.exists_cons
      refine settlesItem_ahead (isOpening_of_isDigit hb) ?_
      split
      · exact settlesItem_refuseNext _ _
      · rename_i heq
        exact absurd heq (ne_of_digit hb rfl)
      · exact settlesItem_unexpected _ _
  | negative h => exact settlesItem_ahead rfl (settlesItem_unexpected _ _)
  | text h => exact settlesItem_ahead rfl (settlesItem_eat (settlesItem_text h))
  | list hgap hitems => exact settlesItem_ahead rfl (settlesItem_unexpected _ _)
  | record hgap hmembers => exact settlesItem_ahead rfl (settlesItem_unexpected _ _)

theorem text_settles : text.Settles where
  skipsBlanks _ := (skipsBlanks_ahead _).located
  settlesItem levels _ hv _ := settlesItem_textRead hv levels

theorem viaText_settles (make : String → α) (text : α → String) : (viaText make text).Settles where
  skipsBlanks levels := (text_settles.skipsBlanks levels).map make
  settlesItem levels _ hv _ := (settlesItem_textRead hv levels).map make

theorem settlesItem_word {g : Unit → Reader α} {word : List UInt8} (h : SettlesItem (g ()) []) :
    SettlesItem (Reader.word word >>= g) word :=
  SettlesItem.bind (.inl ⟨(), (reads_word word).takes.item⟩) fun _ => h

theorem settlesItem_pure (a : α) : SettlesItem (pure a) [] := .inl ⟨a, fun _ p _ => ⟨p, rfl⟩⟩

theorem flag_settles : flag.Settles where
  skipsBlanks _ := (skipsBlanks_ahead _).located
  settlesItem levels v hv _ := by
    refine .located ?_
    cases hv with
    | word h =>
        simp only [words, List.mem_cons, List.not_mem_nil, or_false] at h
        rcases h with rfl | rfl | rfl
        · exact settlesItem_ahead rfl (settlesItem_unexpected _ _)
        · exact settlesItem_ahead rfl (settlesItem_eat (settlesItem_word (settlesItem_pure true)))
        · exact settlesItem_ahead rfl (settlesItem_eat (settlesItem_word (settlesItem_pure false)))
    | number h =>
        obtain ⟨b, more, rfl, hb⟩ := h.exists_cons
        refine settlesItem_ahead (isOpening_of_isDigit hb) ?_
        split
        · exact settlesItem_refuseNext _ _
        · rename_i heq
          exact absurd heq (ne_of_digit hb rfl)
        · rename_i heq
          exact absurd heq (ne_of_digit hb rfl)
        · exact settlesItem_unexpected _ _
    | negative h => exact settlesItem_ahead rfl (settlesItem_unexpected _ _)
    | text h => exact settlesItem_ahead rfl (settlesItem_unexpected _ _)
    | list hgap hitems => exact settlesItem_ahead rfl (settlesItem_unexpected _ _)
    | record hgap hmembers => exact settlesItem_ahead rfl (settlesItem_unexpected _ _)

theorem settlesItem_quotedRead {v : List UInt8} (hv : IsValue v) (levels : Nat) :
    SettlesItem (quoted.read levels) v := by
  refine settlesItem_readForm hv fun gap items _ _ _ => .inr ?_
  exact (refuses_of_yields (.listOf fun _ _ => .refuseValue _) v).item

theorem quoted_settles : quoted.Settles where
  skipsBlanks := skipsBlanks_readForm _
  settlesItem levels _ hv _ := settlesItem_quotedRead hv levels

/-! ### Byte strings -/

theorem fixed_settles (size : Nat) : (fixed size).Settles where
  skipsBlanks := skipsBlanks_readForm _
  settlesItem levels v hv hsound := by
    refine settlesItem_readForm hv fun gap items hgap hitems hlist => ?_
    subst hlist
    refine settlesItem_listOf fun inner _ => SettlesInside.takes_or_refuses ?_ hgap
    refine (settlesInside_sizedBytes size hitems ?_).judge fun bytes => ?_
    · intro bytes hbytes i hi raw hvalue
      by_contra hnone
      exact hsound (.bytes hbytes hi hvalue (not_exists.mp hnone))
    · cases exactly size bytes with
      | some v => exact .inl ⟨v, rfl⟩
      | none => exact .inr (.refuseValue _)

theorem blob_settles : blob.Settles where
  skipsBlanks := skipsBlanks_readForm _
  settlesItem levels v hv _ := by
    refine settlesItem_readForm hv fun gap items hgap hitems hlist => ?_
    subst hlist
    refine settlesItem_listOf fun inner _ => takes_or_refuses_items hitems (fun i hi => ?_) hgap
    exact settlesItem_byte (hitems i hi)

/-! ### Lists and values that may be missing -/

section

variable {c : Codec α} {levels : Nat} {gap : List UInt8} {items : List Item} {values : List α}

theorem takes_listRead (hvalue : ∀ i ∈ items, IsValue i.value) (hgap : Blanks gap)
    (h : TakesItems (c.read levels) items values) : Takes ((list c).read (levels + 1)) (listText gap items) values :=
  .located (.of_goesOn (goesOn_ahead rfl) (.of_goesOn goesOn_eat (takes_items hvalue h hgap)))

theorem refuses_listRead (hvalue : ∀ i ∈ items, IsValue i.value) (hgap : Blanks gap) {front back : List Item} {i : Item}
    (hitems : items = front ++ i :: back) (hfront : TakesItems (c.read levels) front values)
    (hi : RefusesItem (c.read levels) i.value) : Refuses ((list c).read (levels + 1)) (listText gap items) :=
  .located (.of_goesOn (goesOn_ahead rfl) (.of_goesOn goesOn_eat (refuses_items hvalue hitems hfront hi hgap)))

theorem refuses_listRead_zero : Refuses ((list c).read 0) (listText gap items) :=
  .located (.of_goesOn (goesOn_ahead rfl) (refuses_of_yields (.refuseNext .tooDeep) _))

/-- A list is refused, or all its items are taken. -/
theorem takesItems_or_refuses (hc : c.Settles) (hvalue : ∀ i ∈ items, IsValue i.value) (hgap : Blanks gap)
    (hsound : ¬Torn (list c) (listText gap items)) :
    (∃ values, TakesItems (c.read levels) items values) ∨
      Refuses ((list c).read (levels + 1)) (listText gap items) := by
  have hitems (i : Item) (hi : i ∈ items) : SettlesItem (c.read levels) i.value :=
    hc.settlesItem levels (hvalue i hi) fun htorn => hsound (.item hi htorn)
  rcases exists_takesItems_or hitems with htakes | ⟨front, i, back, values, hparted, hfront, hi⟩
  · exact .inl htakes
  · exact .inr (refuses_listRead hvalue hgap hparted hfront hi)

end

theorem list_settles {c : Codec α} (h : c.Settles) : (list c).Settles where
  skipsBlanks _ := (skipsBlanks_ahead _).located
  settlesItem levels v hv hsound := by
    cases hv with
    | word h =>
        refine .located ?_
        simp only [words, List.mem_cons, List.not_mem_nil, or_false] at h
        rcases h with rfl | rfl | rfl <;> exact settlesItem_ahead rfl (settlesItem_unexpected _ _)
    | number h =>
        refine .located ?_
        obtain ⟨b, more, rfl, hb⟩ := h.exists_cons
        refine settlesItem_ahead (isOpening_of_isDigit hb) ?_
        split
        · exact settlesItem_refuseNext _ _
        · rename_i heq
          exact absurd heq (ne_of_digit hb rfl)
        · exact settlesItem_unexpected _ _
    | negative h => exact .located (settlesItem_ahead rfl (settlesItem_unexpected _ _))
    | text h => exact .located (settlesItem_ahead rfl (settlesItem_unexpected _ _))
    | list hgap hitems =>
        cases levels with
        | zero => exact .inr refuses_listRead_zero.item
        | succ inner =>
            rcases takesItems_or_refuses h hitems hgap hsound with ⟨values, hvalues⟩ | hrefuses
            · exact .inl ⟨values, (takes_listRead hitems hgap hvalues).item⟩
            · exact .inr hrefuses.item
    | record hgap hmembers => exact .located (settlesItem_ahead rfl (settlesItem_unexpected _ _))

/-- Only the word for nothing begins like it. -/
theorem eq_null_of_isValue {more : List UInt8} (h : IsValue (0x6e :: more)) : more = [0x75, 0x6c, 0x6c] := by
  generalize hv : 0x6e :: more = v at h
  cases h with
  | word h =>
      simp only [words, List.mem_cons, List.not_mem_nil, or_false] at h
      rcases h with rfl | rfl | rfl <;> cases hv
      rfl
  | number h =>
      obtain ⟨b, more, rfl, hb⟩ := h.exists_cons
      cases hv
      cases hb
  | negative h => cases hv
  | text h => cases hv
  | list hgap hitems => cases hv
  | record hgap hmembers => cases hv

theorem optional_settles {c : Codec α} (h : c.Settles) : (optional c).Settles where
  skipsBlanks _ := skipsBlanks_ahead _
  settlesItem levels v hv hsound := by
    obtain ⟨b, more, rfl, hb⟩ := hv.exists_cons
    refine settlesItem_ahead hb ?_
    split
    · rename_i heq
      cases heq
      rw [eq_null_of_isValue hv]
      exact settlesItem_eat (settlesItem_word (settlesItem_pure none))
    · exact (h.settlesItem levels hv fun htorn => hsound (.optional htorn)).map some

/-! ### Values of any form -/

/-- Reads the rest of a member that is kept, from its colon on. -/
def keepMember (r : Reader Value) (key : String) (kept : List (String × Value)) : Reader (List (String × Value)) := do
  colon
  let v ← r
  pure (insertMember key v kept)

theorem memberStep_eq_keyedStep (r : Reader Value) : Reader.memberStep r = keyedStep (keepMember r) := by
  funext state
  rw [Reader.memberStep, keyedStep]
  congr 1
  funext key
  cases key with
  | none => rfl
  | some key => simp only [keepMember, bind_assoc, pure_bind]

theorem takes_colon {gap : List UInt8} (hgap : Blanks gap) : Takes colon (gap ++ [0x3a]) () :=
  .of_goesOn ((skipsBlanks_ahead _).goesOn hgap) reads_colon.takes

/-- Behind the key of a member a colon is next, and then the value. -/
theorem goesOn_tail (m : Member) {r : Reader α} (hr : SkipsBlanks r) :
    GoesOn (do
      colon
      r) m.tail r m.item.value := by
  have htail : m.tail = m.gap ++ [0x3a] ++ (m.item.before ++ m.item.value) := by simp [Member.tail]
  rw [htail]
  exact (takes_colon m.blanks_gap).goesOn.trans (hr.goesOn m.item.blanks_before)

theorem skipsBlanks_value (levels : Nat) : SkipsBlanks (Reader.value levels) := by
  rw [Reader.value.eq_def]
  exact (skipsBlanks_ahead _).located

/-! How a value of any form is read: digits as a number, what follows a minus sign as a negative one, what follows a
quote as a text, and the inside of lists and records with one level less. -/

section

variable {levels inner : Nat} {gap : List UInt8} {items : List Item} {members : List Member}

theorem goesOn_value_number (levels : Nat) {digits : List UInt8} (h : IsMagnitude digits) :
    GoesOn (Reader.value levels) digits (located (Value.number <$> number true)) digits := by
  rw [Reader.value.eq_def]
  obtain ⟨b, more, rfl, hb⟩ := h.exists_cons
  refine .located ((goesOn_ahead (isBlank_of_isOpening (isOpening_of_isDigit hb))).trans ?_)
  split
  · rename_i heq
    cases heq
  iterate 7
    · rename_i heq
      exact absurd heq (ne_of_digit hb rfl)
  · rename_i heq
    cases heq
    rw [if_pos (show (0x30 ≤ b && b ≤ 0x39) = true from hb)]
    exact fun rest p => ⟨p, rfl⟩

theorem goesOn_value_negative (levels : Nat) (digits : List UInt8) :
    GoesOn (Reader.value levels) (0x2d :: digits) (located (Value.number <$> number false)) digits := by
  rw [Reader.value.eq_def]
  exact .located ((goesOn_ahead rfl).trans goesOn_eat)

theorem goesOn_value_text (levels : Nat) (raw : List UInt8) :
    GoesOn (Reader.value levels) (stringText raw) (located (Value.text <$> Reader.text)) (raw ++ [0x22]) := by
  rw [Reader.value.eq_def]
  exact .located ((goesOn_ahead rfl).trans goesOn_eat)

theorem goesOn_value_list :
    GoesOn (Reader.value (inner + 1)) (listText gap items)
      (located (Value.list <$> enclosed (Reader.items (Reader.value inner)) endList))
      (gap ++ (joined (items.map Item.text) ++ [0x5d])) := by
  rw [Reader.value.eq_def]
  exact .located ((goesOn_ahead rfl).trans goesOn_eat)

theorem goesOn_value_record :
    GoesOn (Reader.value (inner + 1)) (recordText gap members)
      (located (Value.record <$> enclosed (loop (keyedStep (keepMember (Reader.value inner))) (true, []) >>= pure)
        endRecord))
      (gap ++ (joined (members.map Member.text) ++ [0x7d])) := by
  have hread : loop (keyedStep (keepMember (Reader.value inner))) (true, []) >>= pure =
      Reader.members (Reader.value inner) := by
    rw [Reader.members, memberStep_eq_keyedStep, bind_pure]
  rw [Reader.value.eq_def, hread]
  exact .located ((goesOn_ahead rfl).trans goesOn_eat)

theorem refusesItem_value_list_zero : RefusesItem (Reader.value 0) (listText gap items) := by
  rw [Reader.value.eq_def]
  exact .located (.of_goesOnItem (goesOn_ahead rfl).item (refuses_of_yields (.refuseNext _) _).item)

theorem refusesItem_value_record_zero : RefusesItem (Reader.value 0) (recordText gap members) := by
  rw [Reader.value.eq_def]
  exact .located (.of_goesOnItem (goesOn_ahead rfl).item (refuses_of_yields (.refuseNext _) _).item)

end

theorem settlesItem_keepMember {r : Reader Value} (hr : SkipsBlanks r) {m : Member} (hm : SettlesItem r m.item.value)
    (key : String) (kept : List (String × Value)) : SettlesItem (keepMember r key kept) m.tail :=
  .of_goesOnItem (goesOn_tail m (hr.bind _)).item (hm.bind fun _ => settlesItem_pure _)

theorem settlesItem_value {v : List UInt8} (hv : IsValue v) (levels : Nat) : SettlesItem (Reader.value levels) v := by
  induction hv generalizing levels with
  | word h =>
      rw [Reader.value.eq_def]
      refine .located ?_
      simp only [words, List.mem_cons, List.not_mem_nil, or_false] at h
      rcases h with rfl | rfl | rfl <;>
        exact settlesItem_ahead rfl (settlesItem_eat (settlesItem_word (settlesItem_pure _)))
  | number h => exact .of_goesOnItem (goesOn_value_number levels h).item ((halts_number true h).settlesItem.map _).located
  | negative h =>
      exact .of_goesOnItem (goesOn_value_negative levels _).item ((halts_number false h).settlesItem.map _).located
  | text h => exact .of_goesOnItem (goesOn_value_text levels _).item ((settlesItem_text h).map _).located
  | @list gap items hgap hitems ih =>
      cases levels with
      | zero => exact .inr refusesItem_value_list_zero
      | succ inner =>
          refine .of_goesOnItem goesOn_value_list.item (.located ?_)
          rcases takes_or_refuses_items hitems (fun i hi => ih i hi inner) hgap with ⟨values, htakes⟩ | hrefuses
          · exact .inl ⟨_, (htakes.map _).item⟩
          · exact .inr (hrefuses.bind _).item
  | @record gap members hgap hmembers ih =>
      cases levels with
      | zero => exact .inr refusesItem_value_record_zero
      | succ inner =>
          refine .of_goesOnItem goesOn_value_record.item (.located ?_)
          have hentry (m : Member) (hm : m ∈ members) (key : String) (kept : List (String × Value))
              (_ : Spells m.key key.toList) : SettlesItem (keepMember (Reader.value inner) key kept) m.tail :=
            settlesItem_keepMember (skipsBlanks_value inner) (ih m hm inner) key kept
          rcases exists_takesMembers_or hentry [] with ⟨kept, hkept⟩ | ⟨front, m, back, kept, hsplit, hfront, hm⟩
          · exact .inl ⟨_, ((takes_keyed hkept rfl hgap).map _).item⟩
          · exact .inr ((refuses_keyed hsplit hfront hm _ hgap).bind _).item

theorem anything_settles : anything.Settles where
  skipsBlanks := skipsBlanks_value
  settlesItem levels _ hv _ := settlesItem_value hv levels

/-! ### Whole texts -/

/-- The value of a whole text, with so many levels left. -/
def Codec.decodeAt (c : Codec α) (levels : Nat) (bytes : List UInt8) : Except Failure α :=
  Reader.run (fun _ => c.read levels) bytes

theorem ahead_of_blanks {bytes : List UInt8} (h : Blanks bytes) (p : Position) :
    ahead ⟨bytes, p⟩ = .done none ⟨[], p.behind bytes⟩ := by
  have hahead := skipsBlanks_ahead pure bytes [] p h
  rw [bind_pure, List.append_nil] at hahead
  exact hahead

theorem exists_ahead_of_not_blanks {bytes : List UInt8} (h : ¬Blanks bytes) (p : Position) :
    ∃ b c, ahead ⟨bytes, p⟩ = .done (some b) c := by
  induction bytes generalizing p with
  | nil => exact absurd (fun _ h => nomatch h) h
  | cons b bytes ih =>
      cases hb : isBlank b with
      | false => exact ⟨b, _, by rw [← bind_pure ahead, ahead_bind_apply hb, pure_apply]⟩
      | true =>
          have hbytes : ¬Blanks bytes := fun hbytes => h (List.forall_mem_cons.mpr ⟨hb, hbytes⟩)
          have hskip := skipsBlanks_ahead pure [b] bytes p (List.forall_mem_singleton.mpr hb)
          rw [bind_pure] at hskip
          obtain ⟨d, c, hahead⟩ := ih hbytes (p.behind [b])
          exact ⟨d, c, hskip.trans hahead⟩

section

variable {c : Codec α} {levels : Nat} {v before behind : List UInt8} {a : α}

theorem endsItem_of_blanks (h : Blanks behind) : endsItem behind = true := by
  have hends := endsItem_blanks_append h (show endsItem [] = true from rfl)
  rwa [List.append_nil] at hends

theorem decodeAt_of_takesItem (hskips : SkipsBlanks (c.read levels)) (h : TakesItem (c.read levels) v a)
    (hbefore : Blanks before) (hbehind : Blanks behind) :
    c.decodeAt levels (before ++ (v ++ behind)) = .ok a := by
  obtain ⟨q, h⟩ := h behind (Position.first.behind before) (endsItem_of_blanks hbehind)
  rw [Codec.decodeAt, run, Cursor.start, whole, bind_apply, hskips before _ _ hbefore, h]
  dsimp only
  rw [bind_done (ahead_of_blanks hbehind q)]
  rfl

theorem decodeAt_of_refusesItem (hskips : SkipsBlanks (c.read levels)) (h : RefusesItem (c.read levels) v)
    (hbefore : Blanks before) (hbehind : Blanks behind) :
    ∃ e, c.decodeAt levels (before ++ (v ++ behind)) = .error e := by
  obtain ⟨e, c', h⟩ := h behind (Position.first.behind before) (endsItem_of_blanks hbehind)
  rw [Codec.decodeAt, run, Cursor.start, whole, bind_apply, hskips before _ _ hbefore, h]
  exact ⟨e, rfl⟩

theorem decodeAt_eq_ok_iff (hskips : SkipsBlanks (c.read levels)) (hsettles : SettlesItem (c.read levels) v)
    (hbefore : Blanks before) (hbehind : Blanks behind) :
    c.decodeAt levels (before ++ (v ++ behind)) = .ok a ↔ TakesItem (c.read levels) v a := by
  refine ⟨fun h => ?_, fun h => decodeAt_of_takesItem hskips h hbefore hbehind⟩
  rcases hsettles with ⟨a', ha'⟩ | hrefuses
  · cases (decodeAt_of_takesItem hskips ha' hbefore hbehind).symm.trans h
    exact ha'
  · obtain ⟨e, he⟩ := decodeAt_of_refusesItem hskips hrefuses hbefore hbehind
    cases he.symm.trans h

/-- What a value decodes to by itself is what it is taken as. -/
theorem decodeAt_value_eq_ok_iff (hskips : SkipsBlanks (c.read levels)) (hsettles : SettlesItem (c.read levels) v) :
    c.decodeAt levels v = .ok a ↔ TakesItem (c.read levels) v a := by
  have hiff := decodeAt_eq_ok_iff (a := a) hskips hsettles blanks_nil blanks_nil
  rwa [List.nil_append, List.append_nil] at hiff

/-- Nothing but blanks may stand behind a value. -/
theorem decodeAt_trailing (hskips : SkipsBlanks (c.read levels))
    (h : (∃ a, Takes (c.read levels) v a) ∨ Refuses (c.read levels) v) (hbefore : Blanks before)
    (hbehind : ¬Blanks behind) : ∃ e, c.decodeAt levels (before ++ (v ++ behind)) = .error e := by
  rw [Codec.decodeAt, run, Cursor.start, whole, bind_apply, hskips before _ _ hbefore]
  rcases h with ⟨a, h⟩ | h
  · obtain ⟨q, h⟩ := h behind (Position.first.behind before)
    obtain ⟨b, c', hahead⟩ := exists_ahead_of_not_blanks hbehind q
    rw [h]
    dsimp only
    rw [bind_done hahead]
    exact ⟨_, rfl⟩
  · obtain ⟨e, c', h⟩ := h behind (Position.first.behind before)
    rw [h]
    exact ⟨e, rfl⟩

end

end ChainHead.Wire
