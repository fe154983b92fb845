import ChainHead.Proofs.Text.Denotation
import ChainHead.Proofs.Wire.Elements

/-! Byte strings and what they may be written as: a string with hexadecimal digits in it, or a list of numbers below
256. The codecs of byte strings take these values and no others. For a byte string of a fixed size the first items of a
list are its bytes; what is behind them, if the list is taken at all, is no part of it. -/

namespace ChainHead.Wire

open Json Reader

variable {α : Type}

/-! ### Values that spell bytes -/

/-- A value that spells a byte: its digits as a JSON number. -/
def SpellsByte (v : List UInt8) (b : UInt8) : Prop := IsInteger v ∧ goOn 0 (v.map digitValue) = b.toNat

/-- A value that spells bytes, as many as there are. -/
inductive SpellsBytes : List UInt8 → List UInt8 → Prop
  | hex {raw : List UInt8} {text : List Char} {bytes : List UInt8} (h : Spells raw text)
      (hbytes : Hex.Spelled text bytes) : SpellsBytes (stringText raw) bytes
  | list {gap : List UInt8} {items : List Item} {bytes : List UInt8} (hgap : Blanks gap)
      (h : List.Forall₂ (fun i b => SpellsByte i.value b) items bytes) : SpellsBytes (listText gap items) bytes

/-- A value that spells bytes of a fixed number, those of a list at its beginning. -/
inductive SpellsSized (size : Nat) : List UInt8 → List UInt8 → Prop
  | hex {raw : List UInt8} {text : List Char} {bytes : List UInt8} (h : Spells raw text)
      (hbytes : Hex.Spelled text bytes) (hsize : bytes.length = size) : SpellsSized size (stringText raw) bytes
  | list {gap : List UInt8} {items : List Item} {bytes : List UInt8} (hgap : Blanks gap)
      (hvalue : ∀ i ∈ items, IsValue i.value) (hsize : bytes.length = size)
      (h : List.Forall₂ (fun i b => SpellsByte i.value b) (items.take size) bytes) :
      SpellsSized size (listText gap items) bytes

/-! ### Bytes in lists -/

theorem judgeByte_eq_ok_iff {n : Number} {b : UInt8} :
    judgeByte n = .ok b ↔ ∃ k : UInt64, n = .natural k ∧ k.toNat = b.toNat := by
  have hb := b.toNat_lt
  cases n with
  | negative k => exact ⟨(fun h => nomatch h), fun ⟨_, h, _⟩ => nomatch h⟩
  | real bits => exact ⟨(fun h => nomatch h), fun ⟨_, h, _⟩ => nomatch h⟩
  | natural k =>
      rw [judgeByte]
      constructor
      · intro h
        split_ifs at h with hsmall
        cases h
        have hlt : k.toNat < 256 := UInt64.lt_iff_toNat_lt.mp hsmall
        exact ⟨k, rfl, by rw [UInt64.toNat_toUInt8, Nat.mod_eq_of_lt hlt]⟩
      · rintro ⟨k', h, hk⟩
        cases h
        have hsmall : k < 256 := UInt64.lt_iff_toNat_lt.mpr (hk ▸ hb)
        rw [if_pos hsmall]
        refine congrArg Except.ok (UInt8.toNat_inj.mp ?_)
        rw [UInt64.toNat_toUInt8, hk, Nat.mod_eq_of_lt hb]

section

variable {v : List UInt8} {b : UInt8}

theorem takesItem_byte (h : SpellsByte v b) : TakesItem byte v b := by
  obtain ⟨hinteger, hn⟩ := h
  have hfits : (UInt64.ofNat b.toNat).toNat = b.toNat :=
    UInt64.toNat_ofNat_of_lt' (show b.toNat < 2 ^ 64 from b.toNat_lt.trans (by decide))
  have hnumber := (takesItem_number_natural_iff hinteger.isMagnitude).mpr
    ⟨digits_of_isInteger hinteger, hn.trans hfits.symm⟩
  refine .of_goesOnItem (goesOn_byte_number hinteger.isMagnitude).item (.located (hnumber.bind_nil fun _ p _ => ⟨p, ?_⟩))
  rw [judgeByte_eq_ok_iff.mpr ⟨_, rfl, hfits⟩]
  rfl

/-- A number is a byte or is refused as one. -/
theorem number_of_takesItem_byte {positive : Bool} {digits : List UInt8} (h : IsMagnitude digits)
    (hgo : GoesOn byte v (located (number positive >>= fun n => judged (judgeByte n))) digits)
    (htakes : TakesItem byte v b) : ∃ k : UInt64, TakesItem (number positive) digits (.natural k) ∧ k.toNat = b.toNat := by
  rcases (halts_number positive h).settlesItem with ⟨n, hn⟩ | hrefuses
  · cases hbyte : judgeByte n with
    | ok b' =>
        have hread : TakesItem byte v b' := by
          refine .of_goesOnItem hgo.item (.located (hn.bind_nil fun _ p _ => ⟨p, ?_⟩))
          rw [hbyte]
          rfl
        obtain rfl := takesItem_unique hread htakes
        obtain ⟨k, rfl, hk⟩ := judgeByte_eq_ok_iff.mp hbyte
        exact ⟨k, hn, hk⟩
    | error reason =>
        have hread : RefusesItem byte v := by
          refine .of_goesOnItem hgo.item (.located (hn.bind_nil_refuses ?_))
          rw [hbyte]
          exact (refuses_of_yields (.refuseValue reason) []).item
        exact absurd htakes (not_takesItem_of_refusesItem hread b)
  · exact absurd htakes (not_takesItem_of_refusesItem (.of_goesOnItem hgo.item (hrefuses.bind _).located) b)

theorem spellsByte_of_takesItem (hv : IsValue v) (h : TakesItem byte v b) : SpellsByte v b := by
  have hother {first : UInt8} {more : List UInt8} (hgo : GoesOn byte (first :: more) (located (unexpected "u8"))
      (first :: more)) (htakes : TakesItem byte (first :: more) b) : False :=
    htakes.of_yields (P := fun _ => False) hgo.item (Yields.unexpected _).located
  cases hv with
  | word hword =>
      simp only [words, List.mem_cons, List.not_mem_nil, or_false] at hword
      rcases hword with rfl | rfl | rfl <;> exact (hother (.located (goesOn_ahead rfl)) h).elim
  | number hnumber =>
      obtain ⟨k, hk, hb⟩ := number_of_takesItem_byte hnumber (goesOn_byte_number hnumber) h
      obtain ⟨hdigits, hn⟩ := (takesItem_number_natural_iff hnumber).mp hk
      exact ⟨isInteger_of_digits hnumber hdigits, hn.trans hb⟩
  | negative hnumber =>
      obtain ⟨k, hk, -⟩ := number_of_takesItem_byte hnumber (goesOn_byte_negative _) h
      exact absurd rfl (noNatural_of_takesItem hk k)
  | text htext => exact (hother (.located (goesOn_ahead rfl)) h).elim
  | list hgap hitems => exact (hother (.located (goesOn_ahead rfl)) h).elim
  | record hgap hmembers => exact (hother (.located (goesOn_ahead rfl)) h).elim

end

section

variable {items : List Item} {bytes : List UInt8}

/-- The items of a list are taken as bytes exactly if they spell them. -/
theorem takesItems_byte_iff (hvalue : ∀ i ∈ items, IsValue i.value) :
    TakesItems byte items bytes ↔ List.Forall₂ (fun i b => SpellsByte i.value b) items bytes := by
  constructor
  · intro h
    induction h with
    | nil => exact .nil
    | cons hi hitems ih =>
        obtain ⟨hv, hvalue⟩ := List.forall_mem_cons.mp hvalue
        exact .cons (spellsByte_of_takesItem hv hi) (ih hvalue)
  · exact fun h => h.imp fun _ _ => takesItem_byte

theorem takesItems_byte_unique {bytes' : List UInt8} (h : TakesItems byte items bytes)
    (h' : TakesItems byte items bytes') : bytes = bytes' := by
  induction h generalizing bytes' with
  | nil =>
      cases h'
      rfl
  | cons hi hitems ih =>
      cases h' with
      | cons hi' hitems' => rw [takesItem_unique hi hi', ih hitems']

end

/-! ### Strings and lists by their form -/

section

variable {forms : Forms α} {levels : Nat} {v : List UInt8} {a : α}

/-- A string is taken with what is made of its text. -/
theorem takesItem_readForm_text_iff {raw : List UInt8} (h : IsText raw) :
    TakesItem (readForm forms levels) (stringText raw) a ↔ ∃ t : String, Spells raw t.toList ∧ forms.text t = .ok a := by
  have hgo : GoesOn (readForm forms levels) (stringText raw) _ (raw ++ [0x22]) := goesOn_readForm_text raw
  have hread {t : String} {b : α} (ht : Spells raw t.toList) (hb : forms.text t = .ok b) :
      TakesItem (readForm forms levels) (stringText raw) b := by
    refine .of_goesOnItem hgo.item (.located ((takes_text ht).item.bind_nil fun _ p _ => ⟨p, ?_⟩))
    rw [hb]
    rfl
  constructor
  · intro htakes
    by_cases hspelled : ∃ text, Spells raw text
    · obtain ⟨text, hspelled⟩ := hspelled
      rw [← String.toList_ofList (l := text)] at hspelled
      cases hjudged : forms.text (String.ofList text) with
      | ok b =>
          obtain rfl := takesItem_unique (hread hspelled hjudged) htakes
          exact ⟨_, hspelled, hjudged⟩
      | error reason =>
          have hrefuses : RefusesItem (readForm forms levels) (stringText raw) := by
            refine .of_goesOnItem hgo.item (.located ((takes_text hspelled).item.bind_nil_refuses ?_))
            rw [hjudged]
            exact (refuses_of_yields (.refuseValue reason) []).item
          exact absurd htakes (not_takesItem_of_refusesItem hrefuses a)
    · have hrefuses := (refuses_text h (not_exists.mp hspelled)).item
      exact absurd htakes (not_takesItem_of_refusesItem (.of_goesOnItem hgo.item (hrefuses.bind _).located) a)
  · rintro ⟨t, ht, ha⟩
    exact hread ht ha

/-- Where no number is taken, only strings and lists are. -/
theorem text_or_list_of_takesItem (hnumber : ∀ n, ∃ reason, forms.number n = .error reason) (hv : IsValue v)
    (htakes : TakesItem (readForm forms levels) v a) :
    (∃ raw, IsText raw ∧ v = stringText raw) ∨
      ∃ inner gap items, levels = inner + 1 ∧ Blanks gap ∧ (∀ i ∈ items, IsValue i.value) ∧ v = listText gap items := by
  have hnever {r : Reader α} {text : List UInt8} (hgo : GoesOn (readForm forms levels) v r text)
      (hr : Yields r fun _ => False) : False := htakes.of_yields hgo.item hr
  have hjudged (positive : Bool) : Yields (located (number positive >>= fun n => judged (forms.number n)))
      fun _ => False := by
    refine .located (.behind fun n => ?_)
    obtain ⟨reason, hreason⟩ := hnumber n
    rw [hreason]
    exact .refuseValue reason
  cases hv with
  | word h =>
      simp only [words, List.mem_cons, List.not_mem_nil, or_false] at h
      rcases h with rfl | rfl | rfl <;>
        exact (hnever (.located (goesOn_ahead rfl)) (.located (.unexpected _))).elim
  | number h => exact (hnever (goesOn_readForm_number h) (hjudged true)).elim
  | negative h => exact (hnever (goesOn_readForm_negative _) (hjudged false)).elim
  | @text raw h => exact .inl ⟨raw, h, rfl⟩
  | @list gap items hgap hitems =>
      cases levels with
      | zero => exact (hnever (.located (goesOn_ahead rfl)) (.located (.listOf fun inner h => by cases h))).elim
      | succ inner => exact .inr ⟨inner, gap, items, rfl, hgap, hitems, rfl⟩
  | record hgap hmembers =>
      exact (hnever (.located (goesOn_ahead rfl)) (.located (.recordOf fun _ _ => .refuseValue _))).elim

end

/-! ### Byte strings of any size -/

theorem isValue_hex (bytes : List UInt8) : IsValue (bareText (Hex.encode bytes)) :=
  isValue_bareText fun _ hc => isEscaped_of_mem_encode hc

section

variable {levels : Nat} {v bytes : List UInt8}

theorem takesItem_blob_list {gap : List UInt8} {items : List Item} (hgap : Blanks gap)
    (hvalue : ∀ i ∈ items, IsValue i.value) (h : TakesItems byte items bytes) :
    TakesItem (blob.read (levels + 1)) (listText gap items) bytes :=
  .of_goesOnItem (goesOn_readForm_list gap items).item (takes_items hvalue h hgap).item.located

theorem takesItem_blob (h : SpellsBytes v bytes) (levels : Nat) : TakesItem (blob.read (levels + 1)) v bytes := by
  cases h with
  | @hex raw text bytes h hbytes =>
      refine (takesItem_readForm_text_iff h.isText).mpr ⟨String.ofList text, ?_, ?_⟩
      · rwa [String.toList_ofList]
      · rw [← String.toList_ofList (l := text)] at hbytes
        simp only [Hex.decode_eq_ok_iff.mpr hbytes]
  | @list gap items bytes hgap h =>
      have hvalue : ∀ i ∈ items, IsValue i.value :=
        ((List.forall₂_and_left _ _).mp (h.imp fun _ _ hb => ⟨.number hb.1.isMagnitude, hb⟩)).1
      exact takesItem_blob_list hgap hvalue ((takesItems_byte_iff hvalue).mpr h)

theorem spellsBytes_of_takesItem (hv : IsValue v) (h : TakesItem (blob.read levels) v bytes) : SpellsBytes v bytes := by
  rcases text_or_list_of_takesItem (fun _ => ⟨_, rfl⟩) hv h with
    ⟨raw, hraw, rfl⟩ | ⟨inner, gap, items, rfl, hgap, hitems, rfl⟩
  · obtain ⟨t, ht, hbytes⟩ := (takesItem_readForm_text_iff hraw).mp h
    dsimp only at hbytes
    split at hbytes
    · rename_i hdecode
      cases hbytes
      exact .hex ht (Hex.decode_eq_ok_iff.mp hdecode)
    · cases hbytes
  · rcases exists_takesItems_or fun i hi => settlesItem_byte (hitems i hi) with
      ⟨values, hvalues⟩ | ⟨front, i, back, values, hsplit, hfront, hi⟩
    · obtain rfl := takesItem_unique (takesItem_blob_list hgap hitems hvalues) h
      exact .list hgap ((takesItems_byte_iff hitems).mp hvalues)
    · have hrefuses := refuses_items hitems hsplit hfront hi hgap
      have hread : RefusesItem (blob.read (inner + 1)) (listText gap items) :=
        .of_goesOnItem (goesOn_readForm_list gap items).item hrefuses.item.located
      exact absurd h (not_takesItem_of_refusesItem hread bytes)

/-- A value that is taken spells the bytes that it is taken as, and no others. -/
theorem spellsBytes_iff (hv : IsValue v) (h : TakesItem (blob.read (levels + 1)) v bytes) {other : List UInt8} :
    SpellsBytes v other ↔ other = bytes := by
  constructor
  · exact fun hother => takesItem_unique (takesItem_blob hother levels) h
  · rintro rfl
    exact spellsBytes_of_takesItem hv h

end

/-! ### Byte strings of a fixed size -/

section

variable {size levels : Nat} {v bytes : List UInt8} {a : Vector UInt8 size}

theorem exactly_eq_some_iff : exactly size bytes = some a ↔ bytes = a.toList := by
  constructor
  · intro h
    rw [exactly] at h
    split_ifs at h
    cases h
    rfl
  · rintro rfl
    exact exactly_toList a

/-- A string is taken as the bytes that its text is read as. -/
theorem takesItem_fixed_text_iff {raw : List UInt8} (h : IsText raw) :
    TakesItem ((fixed size).read levels) (stringText raw) a ↔ ∃ text, Spells raw text ∧ Hex.Spelled text a.toList := by
  refine (takesItem_readForm_text_iff h).trans ⟨?_, ?_⟩
  · rintro ⟨t, ht, hjudged⟩
    dsimp only at hjudged
    split at hjudged
    · rename_i bytes hdecode
      split at hjudged
      · rename_i b hexactly
        cases hjudged
        obtain rfl := exactly_eq_some_iff.mp hexactly
        exact ⟨_, ht, (Hex.decodeSized_eq_ok_iff.mp hdecode).2⟩
      · cases hjudged
    · cases hjudged
  · rintro ⟨text, htext, hbytes⟩
    rw [← String.toList_ofList (l := text)] at htext hbytes
    refine ⟨_, htext, ?_⟩
    simp only [Hex.decodeSized_eq_ok_iff.mpr ⟨a.length_toList, hbytes⟩, exactly_toList]

theorem yields_surplus (size : Nat) (bytes : List UInt8) : Yields (surplus size bytes) fun found => found = bytes := by
  refine .behind fun answer => ?_
  split
  · exact .refuseValue _
  · exact .pure rfl

/-- The bytes of a list are its first items. -/
theorem takesItems_of_takesItem_fixed {gap : List UInt8} {items : List Item} (hgap : Blanks gap)
    (hvalue : ∀ i ∈ items, IsValue i.value) (h : TakesItem ((fixed size).read (levels + 1)) (listText gap items) a) :
    TakesItems byte (items.take size) a.toList := by
  have hgo : GoesOn ((fixed size).read (levels + 1)) (listText gap items) _ _ := goesOn_readForm_list gap items
  rcases takesItems_or_balks_bytesFrom size hvalue
    (fun found => .wrongLength found ("exactly " ++ toString size ++ " bytes")) with
    ⟨bytes, -, hbytes, hwalks⟩ | hbalks
  · obtain ⟨q, hgo⟩ := hgo [] .first
    obtain ⟨q', h⟩ := h [] .first rfl
    rw [hgo] at h
    obtain ⟨c, h⟩ := exists_of_enclosed_done (located_eq_done h)
    obtain ⟨found, c₁, hfound, h⟩ := exists_of_bind_done h
    rw [sizedBytes_eq] at hfound
    obtain ⟨front, c₂, hfront, hfound⟩ := exists_of_bind_done hfound
    obtain ⟨pre, q₁, -, hwalks⟩ := hwalks gap [] q hgap
    rw [insideText_eq, hwalks] at hfront
    cases hfront
    obtain rfl := yields_surplus size bytes _ _ _ hfound
    cases hexactly : exactly size found with
    | some b =>
        rw [hexactly] at h
        cases h
        rwa [← exactly_eq_some_iff.mp hexactly]
    | none =>
        rw [hexactly] at h
        cases h
  · have hrefuses : RefusesItem ((fixed size).read (levels + 1)) (listText gap items) :=
      .of_goesOnItem hgo.item (refuses_enclosed_of_balks ((hbalks.bind _).bind _) hgap).item.located
    exact absurd h (not_takesItem_of_refusesItem hrefuses a)

/-- A value that is taken spells the bytes that it is taken as, and no others. -/
theorem spellsSized_iff (hv : IsValue v) (h : TakesItem ((fixed size).read (levels + 1)) v a) :
    SpellsSized size v bytes ↔ bytes = a.toList := by
  constructor
  · intro hspells
    cases hspells with
    | @hex raw text bytes hraw hbytes hsize =>
        obtain ⟨b, rfl⟩ : ∃ b : Vector UInt8 size, bytes = b.toList := ⟨⟨bytes.toArray, by simpa using hsize⟩, rfl⟩
        rw [takesItem_unique ((takesItem_fixed_text_iff hraw.isText).mpr ⟨text, hraw, hbytes⟩) h]
    | list hgap hvalue hsize hbytes =>
        exact takesItems_byte_unique ((takesItems_byte_iff fun i hi => hvalue i (List.mem_of_mem_take hi)).mpr hbytes)
          (takesItems_of_takesItem_fixed hgap hvalue h)
  · rintro rfl
    rcases text_or_list_of_takesItem (fun _ => ⟨_, rfl⟩) hv h with
      ⟨raw, hraw, rfl⟩ | ⟨inner, gap, items, hlevels, hgap, hitems, rfl⟩
    · obtain ⟨text, htext, hbytes⟩ := (takesItem_fixed_text_iff hraw).mp h
      exact .hex htext hbytes a.length_toList
    · have hbytes := takesItems_of_takesItem_fixed hgap hitems h
      exact .list hgap hitems a.length_toList
        ((takesItems_byte_iff fun i hi => hitems i (List.mem_of_mem_take hi)).mp hbytes)

end

end ChainHead.Wire
