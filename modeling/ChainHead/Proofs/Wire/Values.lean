import ChainHead.Proofs.Json.Number
import ChainHead.Proofs.Json.Yields
import ChainHead.Proofs.Wire.Elements

/-! Values of any form. A value that was read is written so that it is read again, unless it has a real number in it:
a real is written with the fewest digits that tell it from all others, which the reader is not bound to take for the
same real. -/

namespace ChainHead.Wire

open Json Reader

/-- A value without a real number in it. -/
inductive IsWhole : Value → Prop
  | null : IsWhole .null
  | bool (b : Bool) : IsWhole (.bool b)
  | natural (n : UInt64) : IsWhole (.number (.natural n))
  | negative (k : Nat) : IsWhole (.number (.negative k))
  | text (t : String) : IsWhole (.text t)
  | list {items : List Value} (h : ∀ v ∈ items, IsWhole v) : IsWhole (.list items)
  | record {members : List (String × Value)} (h : ∀ m ∈ members, IsWhole m.2) : IsWhole (.record members)

/-! ### What is written -/

def writeMember (m : String × Value) : List Char := writeText m.1.toList ++ ':' :: m.2.write

theorem writeMoreItems_eq (items : List Value) : writeMoreItems items = (items.map Value.write).flatMap (',' :: ·) := by
  induction items with
  | nil => rfl
  | cons v rest ih =>
      rw [writeMoreItems, ih]
      rfl

theorem writeItems_eq (items : List Value) : writeItems items = separated (items.map Value.write) := by
  cases items with
  | nil => rfl
  | cons v rest =>
      rw [writeItems, writeMoreItems_eq]
      rfl

theorem writeMoreMembers_eq (members : List (String × Value)) :
    writeMoreMembers members = (members.map writeMember).flatMap (',' :: ·) := by
  induction members with
  | nil => rfl
  | cons m rest ih =>
      obtain ⟨key, v⟩ := m
      rw [writeMoreMembers, ih, List.map_cons, List.flatMap_cons, writeMember]
      rfl

theorem writeMembers_eq (members : List (String × Value)) :
    writeMembers members = separated (members.map writeMember) := by
  cases members with
  | nil => rfl
  | cons m rest =>
      obtain ⟨key, v⟩ := m
      rw [writeMembers, writeMoreMembers_eq, List.map_cons, separated, writeMember]

theorem encode_digits_eq_cons (n : Nat) :
    ∃ b more, Utf8.encode (Numeral.digits n) = b :: more ∧ (0x30 ≤ b && b ≤ 0x39) = true := by
  by_cases hzero : n = 0
  · exact ⟨0x30, [], hzero ▸ rfl, rfl⟩
  · obtain ⟨d, more, hds, -, hlt⟩ := digitsOf_eq_cons hzero
    refine ⟨digitByte d, Utf8.encode (more.map Nat.digitChar), ?_, isDigit_digitByte d hlt⟩
    rw [digits_eq_map hzero, hds, List.map_cons, Utf8.encode_cons, encodeChar_digitChar d hlt]
    rfl

theorem startsItem_of_isDigit {b : UInt8} (h : (0x30 ≤ b && b ≤ 0x39) = true) (more : List UInt8) :
    startsItem (b :: more) = true := by
  have hends : ∀ c : UInt8, (0x30 ≤ c && c ≤ 0x39) = false → b ≠ c := by
    rintro c hc rfl
    rw [hc] at h
    cases h
  simp [startsItem, isBlank, hends 0x20 rfl, hends 0x0a rfl, hends 0x0d rfl, hends 0x09 rfl, hends 0x5d rfl]

theorem startsItem_write {v : Value} (h : IsWhole v) : startsItem (Utf8.encode v.write) = true := by
  cases h with
  | null => rfl
  | bool b => cases b <;> rfl
  | natural n =>
      obtain ⟨b, more, hbytes, hdigit⟩ := encode_digits_eq_cons n.toNat
      rw [Value.write, Number.text, Numeral.text, String.toList_ofList, hbytes]
      exact startsItem_of_isDigit hdigit more
  | negative k =>
      rw [Value.write, Number.text, String.toList_ofList]
      rfl
  | text t =>
      rw [Value.write, encode_writeText]
      rfl
  | list h => rfl
  | record h => rfl

/-! ### What is read -/

section

variable {levels : Nat} {members : List (String × Value)}

theorem memberStep_member {key : String} {v : Value} (hv : ReadsItem (Reader.value levels) (Utf8.encode v.write) v)
    {seen : List (String × Value)} (hseen : ∀ m ∈ seen, m.1 < key) (first : Bool) {rest : List UInt8}
    (position : Position) (hrest : endsValue rest = true) :
    memberStep (Reader.value levels) (first, seen)
        ⟨Utf8.encode ((if first then [] else [',']) ++ writeMember (key, v)) ++ rest, position⟩ =
      .done (.inl (false, seen ++ [(key, v)]))
        ⟨rest, position.behind (Utf8.encode ((if first then [] else [',']) ++ writeMember (key, v)))⟩ := by
  have hkey := Fields.reads_nextKey first key
  rw [writeMember, ← List.append_assoc, Utf8.encode_append, List.append_assoc, Position.behind_append, memberStep,
    bind_done (hkey _ _)]
  refine (bind_done (reads_colon _ _)).trans ?_
  refine (bind_done (hv rest _ hrest)).trans ?_
  rw [insertMember_of_lt hseen]
  rfl

/-- Members in order are read one after the other, up to the end of the record. -/
theorem rounds_keptMembers (hmembers : ∀ m ∈ members, ReadsItem (Reader.value levels) (Utf8.encode m.2.write) m.2)
    {seen : List (String × Value)} (hordered : Ordered (seen ++ members)) (first : Bool) (rest : List UInt8)
    (position : Position) :
    Rounds (memberStep (Reader.value levels)) (first, seen)
      ⟨Utf8.encode (Fields.behind first (members.map writeMember)) ++ 0x7d :: rest, position⟩ (seen ++ members)
      ⟨0x7d :: rest, position.behind (Utf8.encode (Fields.behind first (members.map writeMember)))⟩ := by
  induction members generalizing seen first position with
  | nil =>
      have hnone : Fields.behind first (([] : List (String × Value)).map writeMember) = [] := by cases first <;> rfl
      rw [hnone, List.append_nil]
      exact .last (bind_done (Fields.nextKey_end first rest position))
  | cons m members ih =>
      obtain ⟨key, v⟩ := m
      obtain ⟨hv, hmembers⟩ := List.forall_mem_cons.mp hmembers
      have hseen : ∀ m ∈ seen, m.1 < key := fun m hm =>
        (List.pairwise_append.mp hordered).2.2 m hm (key, v) List.mem_cons_self
      rw [← List.singleton_append, ← List.append_assoc] at hordered ⊢
      rw [List.singleton_append, List.map_cons, Fields.behind_cons, Utf8.encode_append, List.append_assoc,
        Position.behind_append]
      refine .more (memberStep_member hv hseen first position (Fields.endsValue_behind _ rfl)) ?_
        (ih hmembers hordered false _)
      have hcolon : 0 < ':'.utf8Size := by decide
      simp only [writeMember, Utf8.encode_append, Utf8.encode_cons, List.length_append, String.length_utf8EncodeChar]
      omega

theorem enclosed_keptMembers_done
    (hmembers : ∀ m ∈ members, ReadsItem (Reader.value levels) (Utf8.encode m.2.write) m.2)
    (hordered : Ordered members) (rest : List UInt8) (position : Position) :
    enclosed (Reader.members (Reader.value levels)) endRecord
        ⟨Utf8.encode (separated (members.map writeMember)) ++ 0x7d :: rest, position⟩ =
      .done members ⟨rest, position.behind (Utf8.encode (separated (members.map writeMember)) ++ [0x7d])⟩ := by
  have hloop := loop_of_rounds
    (rounds_keptMembers hmembers ((List.nil_append members).symm ▸ hordered) true rest position)
  rw [Position.behind_append]
  exact enclosed_done hloop (reads_endRecord rest _)

end

theorem endsNumber_of_endsValue {rest : List UInt8} (h : endsValue rest = true) : endsNumber rest = true := by
  cases rest with
  | nil => rfl
  | cons b rest =>
      simp only [endsValue, Bool.or_eq_true, beq_iff_eq] at h
      rcases h with (rfl | rfl) | rfl <;> rfl

/-- A value that begins with a digit is a number. -/
theorem value_of_isDigit {b : UInt8} (h : (0x30 ≤ b && b ≤ 0x39) = true) (levels : Nat) {more : List UInt8}
    {position : Position} {n : Number} {c : Cursor} (hnumber : number true ⟨b :: more, position⟩ = .done n c) :
    Reader.value levels ⟨b :: more, position⟩ = .done (.number n) c := by
  obtain ⟨hblank, -⟩ : isBlank b = false ∧ b ≠ 0x5d := by
    simpa [startsItem] using startsItem_of_isDigit h more
  have hother (d : UInt8) (hd : (0x30 ≤ d && d ≤ 0x39) = false) : b ≠ d := by
    rintro rfl
    rw [hd] at h
    cases h
  rw [Reader.value.eq_def]
  apply located_done
  refine (ahead_bind_congr hblank (r := Value.number <$> number true) ?_ more position).trans (bind_done hnumber)
  split
  · rename_i heq
    cases heq
  iterate 7
    · rename_i heq
      exact absurd (Option.some.inj heq) (hother _ rfl)
  · rename_i heq
    cases heq
    rw [if_pos h]

theorem value_natural (levels : Nat) (n : UInt64) :
    ReadsItem (Reader.value levels) (Utf8.encode (Numeral.digits n.toNat)) (.number (.natural n)) := by
  intro rest position hrest
  have hnumber := number_digits true n.toNat_lt (endsNumber_of_endsValue hrest) position
  obtain ⟨b, more, hbytes, hdigit⟩ := encode_digits_eq_cons n.toNat
  rw [wholeNumber_true] at hnumber
  rw [hbytes, List.cons_append] at hnumber ⊢
  exact value_of_isDigit hdigit levels hnumber

theorem value_negative (levels : Nat) {k : Nat} (hk : k < 0x8000000000000000) :
    ReadsItem (Reader.value levels) (Utf8.encode ('-' :: Numeral.digits (k + 1))) (.number (.negative k)) := by
  intro rest position hrest
  have hnumber := number_digits false (n := k + 1) (by omega) (endsNumber_of_endsValue hrest) (position.after 0x2d)
  rw [wholeNumber_false hk] at hnumber
  rw [Reader.value.eq_def]
  apply located_done
  rw [Utf8.encode_cons, List.append_assoc]
  have hsigned := bind_done hnumber (f := fun n => pure (Value.number n))
  refine (ahead_bind_apply (show isBlank 0x2d = false from rfl) _ _ position).trans ?_
  exact hsigned

theorem reads_value_word (levels : Nat) :
    Reads (Reader.value levels) (Utf8.encode writeNull) .null ∧
      ∀ b, Reads (Reader.value levels) (Utf8.encode (writeBool b)) (.bool b) := by
  rw [Reader.value.eq_def]
  refine ⟨.located ?_, fun b => .located ?_⟩
  · exact Reads.ahead_bind rfl (Reads.eat_bind ((reads_word _).bind (Reads.pure _)))
  · cases b with
    | true => exact Reads.ahead_bind rfl (Reads.eat_bind ((reads_word [0x72, 0x75, 0x65]).bind (Reads.pure _)))
    | false => exact Reads.ahead_bind rfl (Reads.eat_bind ((reads_word [0x61, 0x6c, 0x73, 0x65]).bind (Reads.pure _)))

theorem reads_value_text (levels : Nat) (t : String) :
    Reads (Reader.value levels) (Utf8.encode (writeText t.toList)) (.text t) := by
  rw [Reader.value.eq_def, encode_writeText]
  refine .located (Reads.ahead_bind rfl ?_)
  exact Reads.eat_bind ((reads_text t).map _)

theorem value_list {inner : Nat} {items : List Value}
    (hitems : ∀ v ∈ items, ReadsItem (Reader.value inner) (Utf8.encode v.write) v)
    (hwhole : ∀ v ∈ items, IsWhole v) :
    ReadsItem (Reader.value (inner + 1)) (Utf8.encode (Value.list items).write) (.list items) := by
  intro rest position _
  have hwrite : Utf8.encode (Value.list items).write =
      0x5b :: (Utf8.encode (separated (items.map Value.write)) ++ [0x5d]) := by
    rw [Value.write, writeItems_eq, List.cons_append, Utf8.encode_cons, Utf8.encode_append]
    rfl
  have hinside := enclosed_items_done hitems (fun v hv => startsItem_write (hwhole v hv)) rest (position.after 0x5b)
  rw [hwrite, Position.behind, List.foldl_cons, ← Position.behind, List.cons_append, List.append_assoc,
    Reader.value.eq_def]
  apply located_done
  rw [ahead_bind_apply rfl]
  exact bind_done hinside

theorem value_record {inner : Nat} {members : List (String × Value)} (hordered : Ordered members)
    (hmembers : ∀ m ∈ members, ReadsItem (Reader.value inner) (Utf8.encode m.2.write) m.2) :
    ReadsItem (Reader.value (inner + 1)) (Utf8.encode (Value.record members).write) (.record members) := by
  intro rest position _
  have hwrite : Utf8.encode (Value.record members).write =
      0x7b :: (Utf8.encode (separated (members.map writeMember)) ++ [0x7d]) := by
    rw [Value.write, writeMembers_eq, List.cons_append, Utf8.encode_cons, Utf8.encode_append]
    rfl
  have hinside := enclosed_keptMembers_done hmembers hordered rest (position.after 0x7b)
  rw [hwrite, Position.behind, List.foldl_cons, ← Position.behind, List.cons_append, List.append_assoc,
    Reader.value.eq_def]
  apply located_done
  rw [ahead_bind_apply rfl]
  exact bind_done hinside

theorem anything_readsBack {depth : Nat} {v : Value} (h : v.Tidy depth) (hwhole : IsWhole v) :
    anything.ReadsBack depth v := by
  induction h with
  | null depth => exact fun levels _ rest position _ => (reads_value_word levels).1 rest position
  | bool depth b => exact fun levels _ rest position _ => (reads_value_word levels).2 b rest position
  | number depth h =>
      cases hwhole with
      | natural n =>
          intro levels _
          have hwrite : anything.write (.number (.natural n)) = Numeral.digits n.toNat := String.toList_ofList
          rw [hwrite]
          exact value_natural levels n
      | negative k =>
          intro levels _
          have hwrite : anything.write (.number (.negative k)) = '-' :: Numeral.digits (k + 1) := String.toList_ofList
          rw [hwrite]
          exact value_negative levels h
  | text depth t => exact fun levels _ rest position _ => reads_value_text levels t rest position
  | list h ih =>
      cases hwhole with
      | list hwhole =>
          intro levels hlevels
          obtain ⟨inner, rfl⟩ : ∃ inner, levels = inner + 1 := ⟨levels - 1, by omega⟩
          have hinner := Nat.le_of_succ_le_succ hlevels
          exact value_list (fun v hv => ih v hv (hwhole v hv) inner hinner) hwhole
  | record hordered h ih =>
      cases hwhole with
      | record hwhole =>
          intro levels hlevels
          obtain ⟨inner, rfl⟩ : ∃ inner, levels = inner + 1 := ⟨levels - 1, by omega⟩
          have hinner := Nat.le_of_succ_le_succ hlevels
          exact value_record hordered fun m hm => ih m hm (hwhole m hm) inner hinner

end ChainHead.Wire
