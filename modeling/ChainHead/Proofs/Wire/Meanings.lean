import ChainHead.Proofs.Wire.Torn
import ChainHead.Proofs.Wire.Values

/-! What the values of the grammar mean, told by their texts and by no reader. Strings mean what they stand for, whole
numbers that fit 64 bits mean themselves, and a record means its members by their keys, of which the last one counts.
A value means one thing at most; it is read as what it means, and what is written for a value means that value. -/

namespace ChainHead

open Json Reader

/-! ### Members by their keys -/

namespace Json

section

variable {key : String} {v : Value} {kept kept' members : List (String × Value)}

theorem lookup_cons_eq_ite (key k : String) (v : Value) (rest : List (String × Value)) :
    ((k, v) :: rest).lookup key = if key = k then some v else rest.lookup key := by
  rw [List.lookup_cons]
  split_ifs with hkey
  · rw [beq_iff_eq.mpr hkey]
  · rw [beq_eq_false_iff_ne.mpr hkey]

theorem lookup_insertMember (key : String) (v : Value) (kept : List (String × Value)) (other : String) :
    (insertMember key v kept).lookup other = if other = key then some v else kept.lookup other := by
  induction kept with
  | nil => exact lookup_cons_eq_ite other key v []
  | cons m rest ih =>
      obtain ⟨k, w⟩ := m
      rw [insertMember]
      by_cases heq : key = k
      · subst heq
        rw [if_pos rfl, lookup_cons_eq_ite, lookup_cons_eq_ite]
        split_ifs <;> rfl
      · rw [if_neg heq]
        by_cases hless : key < k
        · rw [if_pos hless, lookup_cons_eq_ite]
        · rw [if_neg hless, lookup_cons_eq_ite, lookup_cons_eq_ite, ih]
          split_ifs with hk hkey
          · exact absurd (hkey.symm.trans hk) heq
          all_goals rfl

/-- Puts members into a record, one after the other. -/
def keepAll (kept members : List (String × Value)) : List (String × Value) :=
  members.foldl (fun kept m => insertMember m.1 m.2 kept) kept

/-- Of the members with one key the last one counts. -/
theorem lookup_keepAll (kept members : List (String × Value)) (key : String) :
    (keepAll kept members).lookup key = (members.reverse ++ kept).lookup key := by
  induction members generalizing kept with
  | nil => rfl
  | cons m rest ih =>
      obtain ⟨k, w⟩ := m
      calc (keepAll (insertMember k w kept) rest).lookup key
          = (rest.reverse ++ insertMember k w kept).lookup key := ih _
        _ = (rest.reverse.lookup key).or ((insertMember k w kept).lookup key) := List.lookup_append
        _ = (rest.reverse.lookup key).or (((k, w) :: kept).lookup key) := by
            rw [lookup_insertMember, lookup_cons_eq_ite]
        _ = (((k, w) :: rest).reverse ++ kept).lookup key := by
            rw [List.reverse_cons, List.append_assoc, List.lookup_append]
            rfl

theorem ordered_keepAll (h : Ordered kept) (members : List (String × Value)) : Ordered (keepAll kept members) := by
  induction members generalizing kept with
  | nil => exact h
  | cons m rest ih => exact ih (ordered_insertMember m.1 m.2 h)

theorem lookup_eq_some_iff_mem (h : Ordered kept) : kept.lookup key = some v ↔ (key, v) ∈ kept := by
  constructor
  · intro hlookup
    obtain ⟨front, back, rfl, -⟩ := List.lookup_eq_some_iff.mp hlookup
    exact List.mem_append_right _ List.mem_cons_self
  · intro hmem
    obtain ⟨front, back, rfl⟩ := List.append_of_mem hmem
    have hless := (List.pairwise_append.mp h).2.2
    exact List.lookup_eq_some_iff.mpr ⟨front, back, rfl, fun m hm =>
      bne_iff_ne.mpr (hless m hm (key, v) List.mem_cons_self).ne'⟩

/-- Members in order are kept as they are. -/
theorem keepAll_of_ordered (h : Ordered (kept ++ members)) : keepAll kept members = kept ++ members := by
  induction members generalizing kept with
  | nil => exact (List.append_nil kept).symm
  | cons m members ih =>
      have hless : ∀ other ∈ kept, other.1 < m.1 := fun other hother =>
        (List.pairwise_append.mp h).2.2 other hother m List.mem_cons_self
      have hinsert : insertMember m.1 m.2 kept = kept ++ [m] := insertMember_of_lt hless m.2
      rw [← List.singleton_append, ← List.append_assoc] at h ⊢
      rw [← ih h, ← hinsert]
      rfl

/-- Each key of members in order stands in front of one value only. -/
theorem lookup_reverse (h : Ordered members) (key : String) :
    members.reverse.lookup key = members.lookup key := by
  have hall : keepAll [] members = members := keepAll_of_ordered ((List.nil_append members).symm ▸ h)
  rw [← List.append_nil members.reverse, ← lookup_keepAll, hall]

/-- Members in order are determined by what is found by each key. -/
theorem eq_of_lookup_eq (h : Ordered kept) (h' : Ordered kept') (heq : ∀ key, kept.lookup key = kept'.lookup key) :
    kept = kept' := by
  have hmem (m : String × Value) : m ∈ kept ↔ m ∈ kept' := by
    rw [← lookup_eq_some_iff_mem h, ← lookup_eq_some_iff_mem h', heq]
  have hnodup {members : List (String × Value)} (hordered : Ordered members) : members.Nodup :=
    hordered.imp fun hless heq => hless.ne (congrArg Prod.fst heq)
  have hperm : kept.Perm kept' := (List.perm_ext_iff_of_nodup (hnodup h) (hnodup h')).mpr hmem
  exact hperm.eq_of_pairwise (fun a b _ _ hab hba => absurd hba hab.asymm) h h'

end

end Json

namespace Wire

/-! ### Exact values and what they mean -/

/-- A value in which every number is an integer that fits 64 bits, with a sign or without. Minus zero is no integer. -/
inductive IsExact : List UInt8 → Prop
  | word {word : List UInt8} (h : word ∈ words) : IsExact word
  | natural {digits : List UInt8} (h : IsInteger digits)
      (hfits : goOn 0 (digits.map digitValue) < 0x10000000000000000) : IsExact digits
  | negative {digits : List UInt8} (h : IsInteger digits) (hpos : 0 < goOn 0 (digits.map digitValue))
      (hfits : goOn 0 (digits.map digitValue) ≤ 0x8000000000000000) : IsExact (0x2d :: digits)
  | text {raw : List UInt8} (h : IsText raw) : IsExact (stringText raw)
  | list {gap : List UInt8} {items : List Item} (hgap : Blanks gap) (hitems : ∀ i ∈ items, IsExact i.value) :
      IsExact (listText gap items)
  | record {gap : List UInt8} {members : List Member} (hgap : Blanks gap)
      (hmembers : ∀ m ∈ members, IsExact m.item.value) : IsExact (recordText gap members)

/-- What a value of the grammar means. A record means its members in the order of their keys, and of those with one key
the last one. -/
inductive Means : List UInt8 → Value → Prop
  | null : Means (Utf8.encode writeNull) .null
  | bool (b : Bool) : Means (Utf8.encode (writeBool b)) (.bool b)
  | natural {digits : List UInt8} {n : UInt64} (h : IsInteger digits)
      (hn : goOn 0 (digits.map digitValue) = n.toNat) : Means digits (.number (.natural n))
  | negative {digits : List UInt8} {k : Nat} (h : IsInteger digits) (hk : k < 0x8000000000000000)
      (hn : goOn 0 (digits.map digitValue) = k + 1) : Means (0x2d :: digits) (.number (.negative k))
  | text {raw : List UInt8} {t : String} (h : Spells raw t.toList) : Means (stringText raw) (.text t)
  | list {gap : List UInt8} {parts : List (Item × Value)} (hgap : Blanks gap)
      (h : ∀ part ∈ parts, Means part.1.value part.2) :
      Means (listText gap (parts.map Prod.fst)) (.list (parts.map Prod.snd))
  | record {gap : List UInt8} {parts : List (Member × String × Value)} {kept : List (String × Value)}
      (hgap : Blanks gap) (hkeys : ∀ part ∈ parts, Spells part.1.key part.2.1.toList)
      (h : ∀ part ∈ parts, Means part.1.item.value part.2.2) (hordered : Ordered kept)
      (hkept : ∀ key, kept.lookup key = (parts.map Prod.snd).reverse.lookup key) :
      Means (recordText gap (parts.map Prod.fst)) (.record kept)

section

variable {v : List UInt8} {w w' : Value}

theorem IsExact.isValue (h : IsExact v) : IsValue v := by
  induction h with
  | word h => exact .word h
  | natural h hfits => exact .number h.isMagnitude
  | negative h hpos hfits => exact .negative h.isMagnitude
  | text h => exact .text h
  | list hgap hitems ih => exact .list hgap ih
  | record hgap hmembers ih => exact .record hgap ih

theorem Means.isValue (h : Means v w) : IsValue v := by
  induction h with
  | null => exact .word (by decide)
  | bool b => exact .word (by cases b <;> decide)
  | natural h hn => exact .number h.isMagnitude
  | negative h hk hn => exact .negative h.isMagnitude
  | text h => exact .text h.isText
  | list hgap h ih => exact .list hgap (List.forall_mem_map.mpr ih)
  | record hgap hkeys h hordered hkept ih => exact .record hgap (List.forall_mem_map.mpr ih)

/-- What a value means has no real number in it. -/
theorem Means.isWhole (h : Means v w) : IsWhole w := by
  induction h with
  | null => exact .null
  | bool b => exact .bool b
  | natural h hn => exact .natural _
  | negative h hk hn => exact .negative _
  | text h => exact .text _
  | list hgap h ih => exact .list (List.forall_mem_map.mpr ih)
  | @record gap parts kept hgap hkeys h hordered hkept ih =>
      refine .record fun m hm => ?_
      have hlookup := (lookup_eq_some_iff_mem hordered).mpr hm
      rw [hkept] at hlookup
      obtain ⟨front, back, heq, -⟩ := List.lookup_eq_some_iff.mp hlookup
      have hmem : m ∈ parts.map Prod.snd := by
        rw [← List.mem_reverse, heq]
        exact List.mem_append_right _ List.mem_cons_self
      obtain ⟨part, hpart, rfl⟩ := List.mem_map.mp hmem
      exact ih part hpart

end

/-! ### Values are read as what they mean -/

section

variable {levels : Nat} {v : List UInt8} {w w' : Value}

theorem takesItem_number_negative {digits : List UInt8} (h : IsInteger digits) {k : Nat} (hk : k < 0x8000000000000000)
    (hn : goOn 0 (digits.map digitValue) = k + 1) : TakesItem (number false) digits (.negative k) := by
  intro rest p hrest
  have hends := endsNumber_of_endsItem hrest
  obtain ⟨q, hnumber⟩ := number_whole false h (startsDigit_of_endsNumber hends) p
  have hfits : goOn 0 (digits.map digitValue) < 0x10000000000000000 := by omega
  refine ⟨q, ?_⟩
  rw [hnumber, appendDigits_eq_goOn hfits, List.length_map, Nat.sub_self, hn,
    fractionPart_of_endsNumber false (k + 1) hends, wholeNumber_false hk]

theorem takesItem_value_natural {digits : List UInt8} {n : UInt64} (h : IsInteger digits)
    (hn : goOn 0 (digits.map digitValue) = n.toNat) (levels : Nat) :
    TakesItem (Reader.value levels) digits (.number (.natural n)) := by
  have hmagnitude := h.isMagnitude
  have hnumber := (takesItem_number_natural_iff hmagnitude).mpr ⟨digits_of_isInteger h, hn⟩
  exact .of_goesOnItem (goesOn_value_number levels hmagnitude).item (hnumber.map _).located

theorem takesItem_value_negative {digits : List UInt8} (h : IsInteger digits) {k : Nat} (hk : k < 0x8000000000000000)
    (hn : goOn 0 (digits.map digitValue) = k + 1) (levels : Nat) :
    TakesItem (Reader.value levels) (0x2d :: digits) (.number (.negative k)) :=
  .of_goesOnItem (goesOn_value_negative levels digits).item ((takesItem_number_negative h hk hn).map _).located

theorem takesItem_value_text {raw : List UInt8} {t : String} (h : Spells raw t.toList) (levels : Nat) :
    TakesItem (Reader.value levels) (stringText raw) (.text t) :=
  .of_goesOnItem (goesOn_value_text levels raw).item ((takes_text h).map _).item.located

theorem takesItem_value_list {gap : List UInt8} {items : List Item} {values : List Value} (hgap : Blanks gap)
    (hvalue : ∀ i ∈ items, IsValue i.value) (h : TakesItems (Reader.value levels) items values) :
    TakesItem (Reader.value (levels + 1)) (listText gap items) (.list values) :=
  .of_goesOnItem goesOn_value_list.item ((takes_items hvalue h hgap).map _).item.located

theorem takesItem_value_record {gap : List UInt8} {members : List Member} {kept : List (String × Value)}
    (hgap : Blanks gap) (h : TakesMembers (keepMember (Reader.value levels)) [] members kept) :
    TakesItem (Reader.value (levels + 1)) (recordText gap members) (.record kept) :=
  .of_goesOnItem goesOn_value_record.item ((takes_keyed h rfl hgap).map _).item.located

/-- Members are kept one after the other. -/
theorem takesMembers_keepMember {r : Reader Value} (hr : SkipsBlanks r) {parts : List (Member × String × Value)}
    (hkeys : ∀ part ∈ parts, Spells part.1.key part.2.1.toList)
    (h : ∀ part ∈ parts, TakesItem r part.1.item.value part.2.2) (kept : List (String × Value)) :
    TakesMembers (keepMember r) kept (parts.map Prod.fst) (keepAll kept (parts.map Prod.snd)) := by
  induction parts generalizing kept with
  | nil => exact .nil kept
  | cons part parts ih =>
      obtain ⟨m, key, v⟩ := part
      obtain ⟨hkey, hkeys⟩ := List.forall_mem_cons.mp hkeys
      obtain ⟨hv, h⟩ := List.forall_mem_cons.mp h
      refine .cons hkey ?_ (ih hkeys h (insertMember key v kept))
      exact .of_goesOnItem (goesOn_tail m (hr.bind _)).item (hv.bind_nil fun _ p _ => ⟨p, rfl⟩)

theorem exists_parts_of_takesMembers {r : Reader Value} (hr : SkipsBlanks r) {members : List Member}
    (hsettles : ∀ m ∈ members, SettlesItem r m.item.value) {kept kept' : List (String × Value)}
    (h : TakesMembers (keepMember r) kept members kept') :
    ∃ parts : List (Member × String × Value), parts.map Prod.fst = members ∧
      (∀ part ∈ parts, Spells part.1.key part.2.1.toList ∧ TakesItem r part.1.item.value part.2.2) ∧
      keepAll kept (parts.map Prod.snd) = kept' := by
  induction h with
  | nil kept => exact ⟨[], rfl, (fun _ h => nomatch h), rfl⟩
  | @cons kept kept₁ kept' m members key hkey hm more ih =>
      obtain ⟨hsettled, hsettles⟩ := List.forall_mem_cons.mp hsettles
      obtain ⟨parts, hmembers, hparts, hkept⟩ := ih hsettles
      rcases hsettled with ⟨v, hv⟩ | hrefuses
      · have hread : TakesItem (keepMember r key kept) m.tail (insertMember key v kept) :=
          .of_goesOnItem (goesOn_tail m (hr.bind _)).item (hv.bind_nil fun _ p _ => ⟨p, rfl⟩)
        obtain rfl := takesItem_unique hread hm
        exact ⟨(m, key, v) :: parts, congrArg _ hmembers, List.forall_mem_cons.mpr ⟨⟨hkey, hv⟩, hparts⟩, hkept⟩
      · have hread : RefusesItem (keepMember r key kept) m.tail :=
          .of_goesOnItem (goesOn_tail m (hr.bind _)).item (hrefuses.bind _)
        exact absurd hm (not_takesItem_of_refusesItem hread _)

/-- What holds of each item of a list from some number of levels on holds of all of them from some number on. -/
theorem exists_levels_forall {α : Type} {P : Nat → α → Prop} {items : List α}
    (h : ∀ a ∈ items, ∃ least, ∀ levels, least ≤ levels → P levels a) :
    ∃ least, ∀ levels, least ≤ levels → ∀ a ∈ items, P levels a := by
  induction items with
  | nil => exact ⟨0, fun _ _ _ hmem => nomatch hmem⟩
  | cons a items ih =>
      obtain ⟨⟨first, hfirst⟩, hitems⟩ := List.forall_mem_cons.mp h
      obtain ⟨others, hothers⟩ := ih hitems
      refine ⟨max first others, fun levels hlevels => List.forall_mem_cons.mpr ⟨hfirst levels ?_, hothers levels ?_⟩⟩
      · exact (Nat.le_max_left first others).trans hlevels
      · exact (Nat.le_max_right first others).trans hlevels

/-- With enough levels a value is read as what it means. -/
theorem Means.exists_takesItem (h : Means v w) :
    ∃ least, ∀ levels, least ≤ levels → TakesItem (Reader.value levels) v w := by
  induction h with
  | null => exact ⟨0, fun levels _ => (reads_value_word levels).1.takes.item⟩
  | bool b => exact ⟨0, fun levels _ => ((reads_value_word levels).2 b).takes.item⟩
  | natural h hn => exact ⟨0, fun levels _ => takesItem_value_natural h hn levels⟩
  | negative h hk hn => exact ⟨0, fun levels _ => takesItem_value_negative h hk hn levels⟩
  | text h => exact ⟨0, fun levels _ => takesItem_value_text h levels⟩
  | @list gap parts hgap h ih =>
      obtain ⟨least, hleast⟩ := exists_levels_forall ih
      refine ⟨least + 1, fun levels hlevels => ?_⟩
      obtain ⟨inner, rfl⟩ : ∃ inner, levels = inner + 1 := ⟨levels - 1, by omega⟩
      refine takesItem_value_list hgap (List.forall_mem_map.mpr fun part hpart => (h part hpart).isValue) ?_
      rw [TakesItems, List.forall₂_map_left_iff, List.forall₂_map_right_iff, List.forall₂_same]
      exact hleast inner (Nat.le_of_succ_le_succ hlevels)
  | @record gap parts kept hgap hkeys h hordered hkept ih =>
      obtain ⟨least, hleast⟩ := exists_levels_forall ih
      refine ⟨least + 1, fun levels hlevels => ?_⟩
      obtain ⟨inner, rfl⟩ : ∃ inner, levels = inner + 1 := ⟨levels - 1, by omega⟩
      have hmembers := takesMembers_keepMember (skipsBlanks_value inner) hkeys
        (hleast inner (Nat.le_of_succ_le_succ hlevels)) []
      have hall : keepAll [] (parts.map Prod.snd) = kept :=
        eq_of_lookup_eq (ordered_keepAll List.Pairwise.nil _) hordered fun key => by
          rw [lookup_keepAll, List.append_nil, hkept]
      rw [hall] at hmembers
      exact takesItem_value_record hgap hmembers

/-- A value means one thing at most. -/
theorem Means.unique (h : Means v w) (h' : Means v w') : w = w' := by
  obtain ⟨least, hleast⟩ := h.exists_takesItem
  obtain ⟨least', hleast'⟩ := h'.exists_takesItem
  exact takesItem_unique (hleast _ (Nat.le_max_left least least')) (hleast' _ (Nat.le_max_right least least'))

theorem Means.iff (h : Means v w) : Means v w' ↔ w' = w := by
  constructor
  · exact fun h' => h'.unique h
  · rintro rfl
    exact h

/-! What is read of a string, of a list and of a record has to come from its parts. -/

theorem spells_of_takesItem_value {raw : List UInt8} (h : IsText raw)
    (htakes : TakesItem (Reader.value levels) (stringText raw) w) : ∃ t : String, Spells raw t.toList ∧ w = .text t := by
  by_cases hspelled : ∃ text, Spells raw text
  · obtain ⟨text, hspelled⟩ := hspelled
    rw [← String.toList_ofList (l := text)] at hspelled
    exact ⟨_, hspelled, takesItem_unique htakes (takesItem_value_text hspelled levels)⟩
  · have hrefuses := (refuses_text h (not_exists.mp hspelled)).item
    have hvalue : RefusesItem (Reader.value levels) (stringText raw) :=
      .of_goesOnItem (goesOn_value_text levels raw).item (hrefuses.bind _).located
    exact absurd htakes (not_takesItem_of_refusesItem hvalue _)

theorem items_of_takesItem_value {gap : List UInt8} {items : List Item} (hgap : Blanks gap)
    (hvalue : ∀ i ∈ items, IsValue i.value) (htakes : TakesItem (Reader.value levels) (listText gap items) w) :
    ∃ inner values, TakesItems (Reader.value inner) items values ∧ w = .list values := by
  cases levels with
  | zero => exact absurd htakes (not_takesItem_of_refusesItem refusesItem_value_list_zero _)
  | succ inner =>
      rcases exists_takesItems_or fun i hi => settlesItem_value (hvalue i hi) inner with
        ⟨values, hvalues⟩ | ⟨front, i, back, values, hsplit, hfront, hi⟩
      · exact ⟨inner, values, hvalues, takesItem_unique htakes (takesItem_value_list hgap hvalue hvalues)⟩
      · have hrefuses := refuses_items hvalue hsplit hfront hi hgap
        have hlist : RefusesItem (Reader.value (inner + 1)) (listText gap items) :=
          .of_goesOnItem goesOn_value_list.item (hrefuses.bind _).item.located
        exact absurd htakes (not_takesItem_of_refusesItem hlist _)

theorem parts_of_takesItem_value {gap : List UInt8} {members : List Member} (hgap : Blanks gap)
    (hvalue : ∀ m ∈ members, IsValue m.item.value)
    (htakes : TakesItem (Reader.value levels) (recordText gap members) w) :
    ∃ (inner : Nat) (parts : List (Member × String × Value)), parts.map Prod.fst = members ∧
      (∀ part ∈ parts, Spells part.1.key part.2.1.toList ∧
        TakesItem (Reader.value inner) part.1.item.value part.2.2) ∧
      w = .record (keepAll [] (parts.map Prod.snd)) := by
  cases levels with
  | zero => exact absurd htakes (not_takesItem_of_refusesItem refusesItem_value_record_zero _)
  | succ inner =>
      have hskips := skipsBlanks_value inner
      have hsettles (m : Member) (hm : m ∈ members) : SettlesItem (Reader.value inner) m.item.value :=
        settlesItem_value (hvalue m hm) inner
      rcases exists_takesMembers_or (fun m hm key kept _ => settlesItem_keepMember hskips (hsettles m hm) key kept) []
        with ⟨kept, hkept⟩ | ⟨front, m, back, kept, hsplit, hfront, hm⟩
      · obtain ⟨parts, hmembers, hparts, rfl⟩ := exists_parts_of_takesMembers hskips hsettles hkept
        exact ⟨inner, parts, hmembers, hparts, takesItem_unique htakes (takesItem_value_record hgap hkept)⟩
      · have hrefuses := refuses_keyed hsplit hfront hm pure hgap
        have hrecord : RefusesItem (Reader.value (inner + 1)) (recordText gap members) :=
          .of_goesOnItem goesOn_value_record.item (hrefuses.bind _).item.located
        exact absurd htakes (not_takesItem_of_refusesItem hrecord _)

/-- An exact value that is read means what it is read as. -/
theorem IsExact.means (h : IsExact v) (htakes : TakesItem (Reader.value levels) v w) : Means v w := by
  induction h generalizing levels w with
  | word h =>
      have hnull := (reads_value_word levels).1.takes.item
      have hbool (b : Bool) := ((reads_value_word levels).2 b).takes.item
      simp only [words, List.mem_cons, List.not_mem_nil, or_false] at h
      rcases h with rfl | rfl | rfl
      · obtain rfl := takesItem_unique hnull htakes
        exact .null
      · obtain rfl := takesItem_unique (hbool true) htakes
        exact .bool true
      · obtain rfl := takesItem_unique (hbool false) htakes
        exact .bool false
  | @natural digits h hfits =>
      have hn : goOn 0 (digits.map digitValue) = (UInt64.ofNat (goOn 0 (digits.map digitValue))).toNat :=
        (UInt64.toNat_ofNat_of_lt' hfits).symm
      obtain rfl := takesItem_unique (takesItem_value_natural h hn levels) htakes
      exact .natural h hn
  | @negative digits h hpos hfits =>
      obtain ⟨k, hk⟩ : ∃ k, goOn 0 (digits.map digitValue) = k + 1 := ⟨_, (Nat.succ_pred_eq_of_pos hpos).symm⟩
      have hlt : k < 0x8000000000000000 := by omega
      obtain rfl := takesItem_unique (takesItem_value_negative h hlt hk levels) htakes
      exact .negative h hlt hk
  | text h =>
      obtain ⟨t, hspells, rfl⟩ := spells_of_takesItem_value h htakes
      exact .text hspells
  | @list gap items hgap hitems ih =>
      obtain ⟨inner, values, hvalues, rfl⟩ := items_of_takesItem_value hgap (fun i hi => (hitems i hi).isValue) htakes
      obtain ⟨hlength, hparts⟩ := List.forall₂_iff_zip.mp hvalues
      have hmeans := @Means.list gap (items.zip values) hgap fun part hpart =>
        ih part.1 (List.of_mem_zip hpart).1 (hparts hpart)
      rwa [List.map_fst_zip hlength.le, List.map_snd_zip hlength.ge] at hmeans
  | record hgap hmembers ih =>
      obtain ⟨inner, parts, rfl, hparts, rfl⟩ :=
        parts_of_takesItem_value hgap (fun m hm => (hmembers m hm).isValue) htakes
      refine .record hgap (fun part hpart => (hparts part hpart).1) (fun part hpart => ?_) ?_ fun key => ?_
      · exact ih part.1 (List.mem_map_of_mem hpart) (hparts part hpart).2
      · exact ordered_keepAll List.Pairwise.nil _
      · rw [lookup_keepAll, List.append_nil]

end

/-! ### What is written means what it is written for -/

theorem encode_digits_eq {n : Nat} (h : n ≠ 0) : Utf8.encode (Numeral.digits n) = (digitsOf n).map digitByte := by
  rw [digits_eq_map h, encode_map_digitChar fun d hd => digitsOf_lt hd]

theorem isInteger_encode_digits (n : Nat) : IsInteger (Utf8.encode (Numeral.digits n)) := by
  by_cases hzero : n = 0
  · subst hzero
    exact .zero
  · obtain ⟨d, more, hds, hd, hlt⟩ := digitsOf_eq_cons hzero
    rw [encode_digits_eq hzero, hds]
    refine .more (isFirst_digitByte d hlt hd) (List.forall_mem_map.mpr fun d hmem => ?_)
    exact isDigit_digitByte d (digitsOf_lt (hds ▸ List.mem_cons_of_mem _ hmem))

theorem goOn_encode_digits (n : Nat) : goOn 0 ((Utf8.encode (Numeral.digits n)).map digitValue) = n := by
  by_cases hzero : n = 0
  · subst hzero
    rfl
  · have hvalues : ((digitsOf n).map digitByte).map digitValue = digitsOf n := by
      rw [List.map_map]
      exact List.map_congr_left (fun d hd => toNat_digitByte d (digitsOf_lt hd)) |>.trans (List.map_id _)
    rw [encode_digits_eq hzero, hvalues, goOn_digitsOf]

theorem encode_separated (texts : List (List Char)) : Utf8.encode (separated texts) = joined (texts.map Utf8.encode) := by
  cases texts with
  | nil => rfl
  | cons text more =>
      rw [separated, Utf8.encode_append, List.map_cons, joined]
      congr 1
      induction more with
      | nil => rfl
      | cons other more ih =>
          rw [List.flatMap_cons, Utf8.encode_append, ih, List.map_cons, trail, trail, List.flatMap_cons,
            Utf8.encode_cons]
          rfl

theorem encode_list (texts : List (List Char)) :
    Utf8.encode ('[' :: separated texts ++ [']']) = listText [] (texts.map fun t => .bare (Utf8.encode t)) := by
  have htexts : (texts.map fun t => Item.bare (Utf8.encode t)).map Item.text = texts.map Utf8.encode := by
    rw [List.map_map]
    exact List.map_congr_left fun t _ => Item.text_bare _
  rw [listText, htexts, List.cons_append, Utf8.encode_cons, Utf8.encode_append, encode_separated]
  rfl

theorem encode_record (members : List (String × List Char)) :
    Utf8.encode ('\x7b' :: separated (members.map fun m => writeText m.1.toList ++ ':' :: m.2) ++ ['\x7d']) =
      writtenRecord (members.map fun m => (m.1, Utf8.encode m.2)) := by
  have htexts : (members.map fun m => writeText m.1.toList ++ ':' :: m.2).map Utf8.encode =
      ((members.map fun m => (m.1, Utf8.encode m.2)).map fun m => Member.written m.1 m.2).map Member.text := by
    rw [List.map_map, List.map_map, List.map_map]
    refine List.map_congr_left fun m _ => ?_
    have hwritten : (Member.written m.1 (Utf8.encode m.2)).text =
        stringText (Utf8.encode (m.1.toList.flatMap escapeChar)) ++ 0x3a :: Utf8.encode m.2 :=
      congrArg (stringText _ ++ 0x3a :: ·) (Item.text_bare _)
    simp only [Function.comp_apply]
    rw [hwritten, Utf8.encode_append, encode_writeText, Utf8.encode_cons]
    rfl
  rw [writtenRecord, recordText, ← htexts, List.cons_append, Utf8.encode_cons, Utf8.encode_append, encode_separated]
  rfl

theorem means_list {items : List Value} (h : ∀ v ∈ items, Means (Utf8.encode v.write) v) :
    Means (Utf8.encode (Value.list items).write) (.list items) := by
  have hparts : ∀ part ∈ items.map fun v => (Item.bare (Utf8.encode v.write), v), Means part.1.value part.2 :=
    List.forall_mem_map.mpr h
  rw [Value.write, writeItems_eq, encode_list]
  simpa only [List.map_map, Function.comp_def, List.map_id'] using Means.list blanks_nil hparts

theorem means_record {members : List (String × Value)} (hordered : Ordered members)
    (h : ∀ m ∈ members, Means (Utf8.encode m.2.write) m.2) :
    Means (Utf8.encode (Value.record members).write) (.record members) := by
  have hwrite : writeMembers members = separated
      ((members.map fun m => (m.1, m.2.write)).map fun m => writeText m.1.toList ++ ':' :: m.2) := by
    rw [writeMembers_eq, List.map_map]
    rfl
  have hkeys : ∀ part ∈ members.map fun m => (Member.written m.1 (Utf8.encode m.2.write), m),
      Spells part.1.key part.2.1.toList := List.forall_mem_map.mpr fun m _ => spells_flatMap_escapeChar m.1.toList
  have hparts : ∀ part ∈ members.map fun m => (Member.written m.1 (Utf8.encode m.2.write), m),
      Means part.1.item.value part.2.2 := List.forall_mem_map.mpr h
  rw [Value.write, hwrite, encode_record, writtenRecord]
  simpa only [List.map_map, Function.comp_def, List.map_id'] using
    Means.record blanks_nil hkeys hparts hordered fun key => by
      simpa only [List.map_map, Function.comp_def, List.map_id'] using (lookup_reverse hordered key).symm

/-- What is written for a value that can be read means that value, if there is no real number in it. -/
theorem means_write {depth : Nat} {w : Value} (h : w.Tidy depth) (hwhole : IsWhole w) :
    Means (Utf8.encode w.write) w := by
  induction h with
  | null depth => exact .null
  | bool depth b => exact .bool b
  | number depth h =>
      cases hwhole with
      | natural n =>
          rw [Value.write, Number.text, Numeral.text, String.toList_ofList]
          exact .natural (isInteger_encode_digits _) (goOn_encode_digits _)
      | negative k =>
          rw [Value.write, Number.text, String.toList_ofList]
          exact .negative (isInteger_encode_digits _) h (goOn_encode_digits _)
  | text depth t =>
      rw [Value.write, encode_writeText]
      exact .text (spells_flatMap_escapeChar _)
  | list h ih =>
      cases hwhole with
      | list hwhole => exact means_list fun v hv => ih v hv (hwhole v hv)
  | record hordered h ih =>
      cases hwhole with
      | record hwhole => exact means_record hordered fun m hm => ih m hm (hwhole m hm)

end Wire

end ChainHead
