import ChainHead.Proofs.Wire.Places

/-! The parts of a text that is read as a record: for each field the value that is given for it, as a member with the
name of the field or as the item in the place of the field. If a text is taken as a record, each required field has a
part, and the field is what its part is taken as. -/

namespace ChainHead.Wire

open Json Reader

variable {α β τ : Type}

/-- A value is the part of a text that is given for a field with a name and a place. -/
inductive IsPart (name : String) (place : Nat) : List UInt8 → List UInt8 → Prop
  | member {o : Object} {m : Member} (hm : m ∈ o.members) (hkey : Spells m.key name.toList) :
      IsPart name place o.text m.item.value
  | item {gap : List UInt8} {items : List Item} {i : Item} (hgap : Blanks gap) (hvalue : ∀ j ∈ items, IsValue j.value)
      (hi : items[place]? = some i) : IsPart name place (listText gap items) i.value

theorem IsPart.isValue {name : String} {place : Nat} {v part : List UInt8} (h : IsPart name place v part) :
    IsValue part := by
  cases h with
  | @member o m hm hkey => exact o.isValue_members m hm
  | item hgap hvalue hi => exact hvalue _ (List.mem_of_getElem? hi)

/-! ### Records and lists that are written -/

section

variable {parts : List (String × List UInt8)} (h : ∀ m ∈ parts, IsValue m.2)

include h

theorem isValue_writtenRecord : IsValue (writtenRecord parts) := .record blanks_nil (List.forall_mem_map.mpr h)

theorem isPart_writtenRecord {name : String} {part : List UInt8} (hmem : (name, part) ∈ parts) (place : Nat) :
    IsPart name place (writtenRecord parts) part :=
  .member (o := ⟨[], _, blanks_nil, List.forall_mem_map.mpr h⟩) (m := .written name part)
    (List.mem_map.mpr ⟨_, hmem, rfl⟩) (spells_flatMap_escapeChar name.toList)

end

theorem isPart_bare {values : List (List UInt8)} (h : ∀ v ∈ values, IsValue v) {name : String} {place : Nat}
    {part : List UInt8} (hpart : values[place]? = some part) :
    IsPart name place (listText [] (values.map .bare)) part := by
  refine .item (i := .bare part) blanks_nil (List.forall_mem_map.mpr h) ?_
  rw [List.getElem?_map, hpart, Option.map_some]

namespace Fields

/-- No field may be left out. -/
def Required : {τ : Type} → Fields τ → Prop
  | _, .nil => True
  | _, .cons _ _ absence others => absence.byName? = none ∧ absence.byPlace? = none ∧ others.Required

section

variable {fs : Fields τ} {levels : Nat} {values : τ} {name : String} {codec : Codec β} {place : Nat}
  {named : List (String × List UInt8)} {items : List Item}

theorem Required.valuesOf_ne_nil (h : fs.Required) (hholds : fs.Holds levels named values)
    (hfield : fs.Has name codec place) : valuesOf name named ≠ [] := by
  induction hfield with
  | here =>
      intro hnone
      have hfirst := hholds.1
      rw [hnone] at hfirst
      cases h.1.symm.trans hfirst
  | there _ ih => exact ih h.2.2 hholds.2

theorem Required.exists_item (h : fs.Required) (hholds : fs.ListHolds levels items values)
    (hfield : fs.Has name codec place) : ∃ i, items[place]? = some i := by
  induction hfield generalizing items with
  | here =>
      cases items with
      | nil => cases h.2.1.symm.trans hholds.1
      | cons i items => exact ⟨i, rfl⟩
  | there _ ih =>
      cases items with
      | nil => cases h.2.1.symm.trans hholds.1
      | cons i items => exact ih h.2.2 hholds.2

theorem mem_valuesOf {members : List Member} (hnamed : Named members named) {m : Member} (hm : m ∈ members)
    (hkey : Spells m.key name.toList) : m.item.value ∈ valuesOf name named := by
  induction hnamed with
  | nil => cases hm
  | @cons m' n members named hn hnamed ih =>
      rcases List.mem_cons.mp hm with rfl | hm
      · obtain rfl := eq_of_spells hn.1 hkey
        simp [valuesOf, hn.2]
      · obtain ⟨n', hn', heq⟩ := List.mem_map.mp (ih hm)
        exact List.mem_map.mpr ⟨n', List.mem_filter.mpr
          ⟨List.mem_cons_of_mem n (List.mem_filter.mp hn').1, (List.mem_filter.mp hn').2⟩, heq⟩

/-- A field holds with each value that is given for it. -/
theorem FieldHolds.decodeAt {codec : Codec β} {absence : Absence β} {given : List (List UInt8)} {b : β}
    (h : FieldHolds codec absence levels given b) {v : List UInt8} (hv : v ∈ given) :
    codec.decodeAt levels v = .ok b := by
  match given with
  | [] => cases hv
  | [w] =>
      obtain rfl := List.mem_singleton.mp hv
      exact h
  | _ :: _ :: _ => exact h.elim

end

end Fields

/-! ### What a text holds that is taken as a record -/

section

variable {name : String} {fs : Fields τ} {make : τ → α} {parts : α → τ} {levels : Nat} {a : α}

theorem holds_of_takesItem (hnames : fs.names.Nodup) (hfields : fs.Settle) {o : Object}
    (hsound : ¬Torn (record name fs make parts) o.text)
    (h : TakesItem ((record name fs make parts).read (levels + 1)) o.text a) :
    ∃ named values, Fields.Named o.members named ∧ fs.Holds levels named values ∧ make values = a := by
  have hsettles := settlesMembers_of_not_torn hfields o.isValue_members hsound levels
  rcases holds_or_refuses hnames hfields o.isValue_members hsettles o.blanks_gap with
    ⟨named, values, hnamed, hholds⟩ | hrefuses
  · have hread : Takes ((record name fs make parts).read (levels + 1)) o.text (make values) :=
      takes_of_holds hnames hfields hnamed o.isValue_members hsettles o.blanks_gap hholds
    exact ⟨named, values, hnamed, hholds, takesItem_unique hread.item h⟩
  · exact absurd h (not_takesItem_of_refusesItem hrefuses.item a)

theorem listHolds_of_takesItem (hfields : fs.Settle) {gap : List UInt8} {items : List Item} (hgap : Blanks gap)
    (hitems : ∀ i ∈ items, IsValue i.value) (hsound : ¬Torn (record name fs make parts) (listText gap items))
    (h : TakesItem ((record name fs make parts).read (levels + 1)) (listText gap items) a) :
    ∃ values, fs.ListHolds levels items values ∧ make values = a := by
  rcases listHolds_or_refuses hitems hgap (settlesItems_of_not_torn hfields hitems hsound levels) with
    ⟨values, hholds⟩ | hrefuses
  · exact ⟨values, hholds, takesItem_unique (takes_of_listHolds hitems hgap hholds).item h⟩
  · exact absurd h (not_takesItem_of_refusesItem hrefuses.item a)

end

/-! ### The parts of a text -/

section

variable {c : Codec α} {l : Layout c} {name : String} {codec : Codec β} {place levels : Nat} {v part : List UInt8} {a : α}

theorem not_torn_of_isPart (hfield : l.fields.Has name codec place) (hsound : ¬Torn c v) (h : IsPart name place v part) :
    ¬Torn codec part := by
  obtain ⟨recordName, fields, make, parts, rfl⟩ := l
  cases h with
  | member hm hkey => exact fun htorn => hsound (.member hfield hm hkey htorn)
  | item hgap hvalue hi => exact fun htorn => hsound (.place hfield hi htorn)

/-- If no field may be left out, each of them has a part. -/
theorem exists_isPart (hl : l.WellFormed) (hrequired : l.fields.Required) (hfield : l.fields.Has name codec place)
    (hv : IsValue v) (hsound : ¬Torn c v) (h : TakesItem (c.read (levels + 1)) v a) :
    ∃ part, IsPart name place v part := by
  obtain ⟨recordName, fields, make, parts, rfl⟩ := l
  obtain ⟨hnames, hfields, -⟩ := hl
  rcases @list_or_record_or_refuses _ _ recordName fields make parts v hv (levels + 1) with
    ⟨gap, items, hgap, hitems, rfl⟩ | ⟨o, rfl⟩ | hrefuses
  · obtain ⟨values, hholds, -⟩ := listHolds_of_takesItem hfields hgap hitems hsound h
    obtain ⟨i, hi⟩ := hrequired.exists_item hholds hfield
    exact ⟨_, .item hgap hitems hi⟩
  · obtain ⟨named, values, hnamed, hholds, -⟩ := holds_of_takesItem hnames hfields hsound h
    obtain ⟨w, hw⟩ := List.exists_mem_of_ne_nil _ (hrequired.valuesOf_ne_nil hholds hfield)
    obtain ⟨m, hm, hkey, -⟩ := Fields.exists_member_of_mem_valuesOf hnamed hw
    exact ⟨_, .member hm hkey⟩
  · exact absurd h (not_takesItem_of_refusesItem hrefuses a)

/-- A field is what its part is taken as. -/
theorem takesItem_of_isPart (hl : l.WellFormed) {get : l.τ → β} {put : β → l.τ → l.τ}
    (hfield : l.fields.At name codec place get put) {field : α → β} (hmake : ∀ values, field (l.make values) = get values)
    (hsound : ¬Torn c v) (h : TakesItem (c.read (levels + 1)) v a) (hpart : IsPart name place v part) :
    TakesItem (codec.read levels) part (field a) := by
  have hsettles := (hl.settle_fields.of_has hfield.has).settlesItem levels hpart.isValue
    (not_torn_of_isPart hfield.has hsound hpart)
  have hskips := (hl.settle_fields.of_has hfield.has).skipsBlanks levels
  obtain ⟨recordName, fields, make, parts, rfl⟩ := l
  obtain ⟨hnames, hfields, -⟩ := hl
  cases hpart with
  | member hm hkey =>
      obtain ⟨named, values, hnamed, hholds, rfl⟩ := holds_of_takesItem hnames hfields hsound h
      obtain ⟨absence, hfieldHolds⟩ := hfield.exists_fieldHolds hholds
      have hdecode := hfieldHolds.decodeAt (Fields.mem_valuesOf hnamed hm hkey)
      rw [hmake]
      exact (decodeAt_value_eq_ok_iff hskips hsettles).mp hdecode
  | item hgap hvalue hi =>
      obtain ⟨values, hholds, rfl⟩ := listHolds_of_takesItem hfields hgap hvalue hsound h
      rw [hmake]
      exact hfield.takesItem hholds hi

end

end ChainHead.Wire
