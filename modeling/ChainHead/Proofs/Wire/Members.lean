import ChainHead.Proofs.Json.Passing
import ChainHead.Proofs.Wire.RoundTrip
import ChainHead.Proofs.Wire.Torn

/-! Records are read from their members. Each known member is read by the codec of its field into the slot of that
field, which has to be empty, and every other member is passed over. So what a record is read as depends on nothing but
the values that the members give for each field, and the slots can be followed field by field. -/

namespace ChainHead.Wire

open Json Reader

variable {α β σ τ : Type}

namespace Fields

/-- The codecs of all fields settle. -/
def Settle : {τ : Type} → Fields τ → Prop
  | _, .nil => True
  | _, .cons _ codec _ others => codec.Settles ∧ others.Settle

theorem Settle.of_has {fs : Fields τ} (h : fs.Settle) {name : String} {codec : Codec β} {place : Nat}
    (hfield : fs.Has name codec place) : codec.Settles := by
  induction hfield with
  | here => exact h.1
  | there _ ih => exact ih h.2

theorem mem_names_of_has {fs : Fields τ} {name : String} {codec : Codec β} {place : Nat}
    (hfield : fs.Has name codec place) : name ∈ fs.names := by
  induction hfield with
  | here => exact List.mem_cons_self
  | there _ ih => exact List.mem_cons_of_mem _ ih

/-! ### Records as lists -/

section

variable {levels : Nat} {expected : String}

theorem readItems_cons {name : String} {codec : Codec α} {absence : Absence α} {others : Fields β} (index : Nat) :
    (cons name codec absence others).readItems levels expected index = (do
      let a ← itemOr (index == 0) (codec.read levels)
        (match absence.byPlace? with
        | some a => pure a
        | none => refuseValue (.wrongLength index expected))
      let rest ← others.readItems levels expected (index + 1)
      pure (a, rest)) := by
  rw [readItems, itemOr, bind_assoc]
  congr 1
  funext more
  cases more with
  | true => rfl
  | false => cases absence.byPlace? <;> rfl

/-- All fields hold with the items of a list, in their order: each item is taken as its field, and a field without an
item may be left out. -/
def ListHolds (levels : Nat) : {τ : Type} → Fields τ → List Item → τ → Prop
  | _, .nil, items, _ => items = []
  | _, .cons _ _ absence others, [], (a, rest) => absence.byPlace? = some a ∧ others.ListHolds levels [] rest
  | _, .cons _ codec _ others, i :: items, (a, rest) =>
    TakesItem (codec.read levels) i.value a ∧ others.ListHolds levels items rest

/-- Where all fields hold, their reader walks over all items. -/
theorem walks_readItems {fs : Fields τ} {items : List Item} (hvalue : ∀ i ∈ items, IsValue i.value) {values : τ}
    (h : fs.ListHolds levels items values) {index : Nat} {behindValue : Bool}
    (hindex : items = [] ∨ (index == 0) = !behindValue) :
    ∃ behindValue', Walks (fs.readItems levels expected index) ⟨behindValue, items⟩ values ⟨behindValue', []⟩ := by
  induction fs generalizing items index behindValue with
  | nil =>
      obtain rfl : items = [] := h
      exact ⟨behindValue, walks_pure () _⟩
  | @cons α γ name codec absence others ih =>
      obtain ⟨a, rest⟩ := values
      rw [readItems_cons]
      cases items with
      | nil =>
          obtain ⟨habsent, hothers⟩ := h
          obtain ⟨behindValue', hmore⟩ := @ih [] hvalue rest hothers (index + 1) behindValue (.inl rfl)
          refine ⟨behindValue', .bind (walks_itemOr_end ?_) (hmore.bind (walks_pure (a, rest) _))⟩
          rw [habsent]
          exact walks_pure a _
      | cons i items =>
          obtain ⟨ha, hothers⟩ := h
          obtain ⟨hi, hvalue⟩ := List.forall_mem_cons.mp hvalue
          have hfirst : (index == 0) = !behindValue := hindex.resolve_left (List.cons_ne_nil i items)
          obtain ⟨behindValue', hmore⟩ := @ih items hvalue rest hothers (index + 1) true (.inr rfl)
          exact ⟨behindValue', .bind (walks_itemOr hfirst hi ha) (hmore.bind (walks_pure (a, rest) _))⟩

/-- The fields hold, or their reader leaves items unread, or balks. -/
theorem listHolds_or {fs : Fields τ} {items : List Item} (hvalue : ∀ i ∈ items, IsValue i.value)
    (hitems : ∀ {β : Type} {name : String} {codec : Codec β} {place : Nat}, fs.Has name codec place →
      ∀ i ∈ items[place]?, SettlesItem (codec.read levels) i.value)
    {index : Nat} {behindValue : Bool} (hindex : items = [] ∨ (index == 0) = !behindValue) :
    (∃ values, fs.ListHolds levels items values) ∨
      (∃ values behindValue' i left, IsValue i.value ∧
        Walks (fs.readItems levels expected index) ⟨behindValue, items⟩ values ⟨behindValue', i :: left⟩) ∨
      Balks (fs.readItems levels expected index) ⟨behindValue, items⟩ := by
  induction fs generalizing items index behindValue with
  | nil =>
      cases items with
      | nil => exact .inl ⟨(), rfl⟩
      | cons i left => exact .inr (.inl ⟨(), behindValue, i, left, hvalue i List.mem_cons_self, walks_pure () _⟩)
  | @cons α γ name codec absence others ih =>
      rw [readItems_cons]
      cases items with
      | nil =>
          cases habsent : absence.byPlace? with
          | none => exact .inr (.inr ((balks_itemOr_end (balks_of_yields (.refuseValue _) _)).bind _))
          | some a =>
              have hfirst : Walks (itemOr (index == 0) (codec.read levels) (pure a)) ⟨behindValue, []⟩ a
                  ⟨behindValue, []⟩ := walks_itemOr_end (walks_pure a _)
              rcases @ih [] hvalue (fun _ _ h => nomatch h) (index + 1) behindValue (.inl rfl) with
                ⟨rest, hothers⟩ | ⟨rest, behindValue', i, left, hi, hmore⟩ | hmore
              · exact .inl ⟨(a, rest), habsent, hothers⟩
              · exact .inr (.inl ⟨(a, rest), behindValue', i, left, hi, hfirst.bind (hmore.bind (walks_pure _ _))⟩)
              · exact .inr (.inr (hfirst.bind_balks (hmore.bind _)))
      | cons i items =>
          obtain ⟨hi, hvalue⟩ := List.forall_mem_cons.mp hvalue
          have hindex : (index == 0) = !behindValue := hindex.resolve_left (List.cons_ne_nil i items)
          rcases hitems .here i rfl with ⟨a, ha⟩ | hrefuses
          · have hfirst {absent : Reader α} : Walks (itemOr (index == 0) (codec.read levels) absent)
                ⟨behindValue, i :: items⟩ a ⟨true, items⟩ := walks_itemOr hindex hi ha
            rcases @ih items hvalue (fun hfield j hj => hitems (.there hfield) j hj) (index + 1) true (.inr rfl) with
              ⟨rest, hothers⟩ | ⟨rest, behindValue', j, left, hj, hmore⟩ | hmore
            · exact .inl ⟨(a, rest), ha, hothers⟩
            · exact .inr (.inl ⟨(a, rest), behindValue', j, left, hj, hfirst.bind (hmore.bind (walks_pure _ _))⟩)
            · exact .inr (.inr (hfirst.bind_balks (hmore.bind _)))
          · exact .inr (.inr ((balks_itemOr hindex hi hrefuses).bind _))

end

/-! ### One member -/

/-- A member with another name is passed over. -/
theorem readMember_of_not_mem {fs : Fields τ} {levels : Nat} {key : String} (h : key ∉ fs.names) (slots : fs.Slots) :
    fs.readMember levels key slots = (do
      colon
      skip
      pure slots) := by
  induction fs with
  | nil => rfl
  | cons name codec absence others ih =>
      obtain ⟨slot, rest⟩ := slots
      obtain ⟨hne, hothers⟩ := not_or.mp fun hmem => h (List.mem_cons.mpr hmem)
      rw [readMember_of_ne hne, ih hothers rest]
      simp only [map_eq_pure_bind, bind_assoc, pure_bind]
      rfl

section

variable {levels : Nat} {name key : String} {codec : Codec α} {absence : Absence α} {others : Fields β} {m : Member}

theorem takesItem_readMember_of_not_mem {fs : Fields τ} (h : key ∉ fs.names) (hvalue : IsValue m.item.value)
    (slots : fs.Slots) : TakesItem (fs.readMember levels key slots) m.tail slots := by
  have htail : m.tail = m.gap ++ [0x3a] ++ (m.item.before ++ m.item.value) := by simp [Member.tail]
  rw [readMember_of_not_mem h, htail]
  refine (takes_colon m.blanks_gap).bind_item ?_
  exact (takesItem_skip m.item.blanks_before hvalue).bind_nil fun _ p _ => ⟨p, rfl⟩

theorem goesOn_readMember (name : String) (hcodec : SkipsBlanks (codec.read levels)) (rest : others.Slots) :
    GoesOn ((cons name codec absence others).readMember levels name (none, rest)) m.tail
      ((fun a => (some a, rest)) <$> codec.read levels) m.item.value := by
  rw [readMember_of_eq]
  exact goesOn_tail m (hcodec.map _)

/-- A member with the name of a field is read into the slot of the field, if that is empty. -/
theorem takesItem_readMember_of_eq_iff (name : String) (absence : Absence α) (others : Fields β)
    (hskips : SkipsBlanks (codec.read levels)) (hsettles : SettlesItem (codec.read levels) m.item.value)
    {slot : Option α} {rest : others.Slots} {slots : (cons name codec absence others).Slots} :
    TakesItem ((cons name codec absence others).readMember levels name (slot, rest)) m.tail slots ↔
      slot = none ∧ ∃ a, slots = (some a, rest) ∧ TakesItem (codec.read levels) m.item.value a := by
  cases slot with
  | some b =>
      refine ⟨fun h => ?_, fun h => nomatch h.1⟩
      simp only [readMember, if_pos] at h
      exact absurd h (not_takesItem_of_refusesItem (refuses_of_yields (.refuseValue _) _).item _)
  | none =>
      have hread {a : α} (ha : TakesItem (codec.read levels) m.item.value a) :
          TakesItem ((cons name codec absence others).readMember levels name (none, rest)) m.tail (some a, rest) :=
        .of_goesOnItem (goesOn_readMember name hskips rest).item (ha.map _)
      constructor
      · intro h
        rcases hsettles with ⟨a, ha⟩ | hrefuses
        · exact ⟨rfl, a, takesItem_unique h (hread ha), ha⟩
        · have hmember : RefusesItem ((cons name codec absence others).readMember levels name (none, rest)) m.tail :=
            .of_goesOnItem (goesOn_readMember name hskips rest).item (hrefuses.bind _)
          exact absurd h (not_takesItem_of_refusesItem hmember _)
      · rintro ⟨-, a, rfl, ha⟩
        exact hread ha

theorem takesItem_readMember_of_ne_iff (h : key ≠ name) {slot : Option α} {rest : others.Slots}
    {slots : (cons name codec absence others).Slots} :
    TakesItem ((cons name codec absence others).readMember levels key (slot, rest)) m.tail slots ↔
      ∃ rest', slots = (slot, rest') ∧ TakesItem (others.readMember levels key rest) m.tail rest' := by
  rw [readMember_of_ne h]
  constructor
  · intro htakes
    obtain ⟨rest', hrest', hothers⟩ := htakes.of_map (Prod.mk_right_injective slot)
    exact ⟨rest', hrest'.symm, hothers⟩
  · rintro ⟨rest', rfl, hothers⟩
    exact hothers.map _

/-- Reading a member depends on nothing behind it, if this is so for its value as a field with its key. -/
theorem settlesItem_readMember (fs : Fields τ) (hvalue : IsValue m.item.value) (hfields : fs.Settle)
    (hmember : ∀ {β : Type} {codec : Codec β} {place : Nat}, fs.Has key codec place →
      SettlesItem (codec.read levels) m.item.value) (slots : fs.Slots) :
    SettlesItem (fs.readMember levels key slots) m.tail := by
  induction fs with
  | nil => exact .inl ⟨_, takesItem_readMember_of_not_mem List.not_mem_nil hvalue slots⟩
  | cons name codec absence others ih =>
      obtain ⟨slot, rest⟩ := slots
      by_cases hkey : key = name
      · subst hkey
        cases slot with
        | some a =>
            simp only [readMember, if_pos]
            exact .inr (refuses_of_yields (.refuseValue _) _).item
        | none =>
            refine .of_goesOnItem (goesOn_readMember key (hfields.1.skipsBlanks levels) rest).item ?_
            exact (hmember .here).map _
      · rw [readMember_of_ne hkey]
        exact (ih hfields.2 (fun hfield => hmember (.there hfield)) rest).map _

end

/-! ### All members -/

/-- The members of a record, with the texts of their keys. -/
def Named (members : List Member) (named : List (String × List UInt8)) : Prop :=
  List.Forall₂ (fun m n => Spells m.key n.1.toList ∧ m.item.value = n.2) members named

/-- The values that the members give for a field. -/
def valuesOf (name : String) (named : List (String × List UInt8)) : List (List UInt8) :=
  (named.filter fun n => n.1 = name).map Prod.snd

theorem exists_named_of_takesMembers {entry : String → σ → Reader σ} {s s' : σ} {members : List Member}
    (h : TakesMembers entry s members s') : ∃ named, Named members named := by
  induction h with
  | nil s => exact ⟨[], .nil⟩
  | @cons s s' s'' m ms key hkey htakes more ih =>
      obtain ⟨named, hnamed⟩ := ih
      exact ⟨(key, m.item.value) :: named, .cons ⟨hkey, rfl⟩ hnamed⟩

theorem eq_of_spells {raw : List UInt8} {s t : String} (hs : Spells raw s.toList) (ht : Spells raw t.toList) : s = t :=
  String.toList_injective (spells_unique hs ht)

theorem takesMembers_nil_iff {entry : String → σ → Reader σ} {s s' : σ} : TakesMembers entry s [] s' ↔ s' = s := by
  constructor
  · intro h
    cases h
    rfl
  · rintro rfl
    exact .nil _

theorem takesMembers_cons_iff {entry : String → σ → Reader σ} {s s'' : σ} {m : Member} {ms : List Member} {key : String}
    (hkey : Spells m.key key.toList) :
    TakesMembers entry s (m :: ms) s'' ↔ ∃ s', TakesItem (entry key s) m.tail s' ∧ TakesMembers entry s' ms s'' := by
  constructor
  · intro h
    cases h with
    | @cons _ s' _ _ _ other hother htakes more =>
        obtain rfl := eq_of_spells hkey hother
        exact ⟨s', htakes, more⟩
  · rintro ⟨s', htakes, more⟩
    exact .cons hkey htakes more

/-- How the slot of a field is filled from the values that are given for the field. -/
def Fills (codec : Codec α) (levels : Nat) (slot : Option α) (given : List (List UInt8)) (slot' : Option α) : Prop :=
  match given with
  | [] => slot' = slot
  | [v] => slot = none ∧ ∃ a, slot' = some a ∧ TakesItem (codec.read levels) v a
  | _ => False

theorem fills_cons_iff {codec : Codec α} {levels : Nat} {slot slot' : Option α} {v : List UInt8}
    {given : List (List UInt8)} :
    Fills codec levels slot (v :: given) slot' ↔
      slot = none ∧ ∃ a, TakesItem (codec.read levels) v a ∧ Fills codec levels (some a) given slot' := by
  cases given with
  | nil => exact ⟨fun ⟨hslot, a, heq, ha⟩ => ⟨hslot, a, ha, heq⟩, fun ⟨hslot, a, ha, heq⟩ => ⟨hslot, a, heq, ha⟩⟩
  | cons w given =>
      refine ⟨fun h => h.elim, fun ⟨_, a, _, h⟩ => ?_⟩
      cases given with
      | nil => cases h.1
      | cons u given => exact h

section

variable {levels : Nat} {name : String} {codec : Codec α} {absence : Absence α} {others : Fields β}
  {members : List Member} {named : List (String × List UInt8)}

/-- The members of a record go to its first field and to the others independently. -/
theorem takesMembers_field_iff (hname : name ∉ others.names) (hskips : SkipsBlanks (codec.read levels))
    (hnamed : Named members named) (hvalue : ∀ m ∈ members, IsValue m.item.value)
    (hsettles : ∀ v ∈ valuesOf name named, SettlesItem (codec.read levels) v) {slot slot' : Option α}
    {rest rest' : others.Slots} :
    TakesMembers ((cons name codec absence others).readMember levels) (slot, rest) members (slot', rest') ↔
      Fills codec levels slot (valuesOf name named) slot' ∧
        TakesMembers (others.readMember levels) rest members rest' := by
  induction hnamed generalizing slot rest with
  | nil =>
      refine takesMembers_nil_iff.trans (Prod.mk_inj.trans (and_congr_right fun _ => ?_))
      exact takesMembers_nil_iff.symm
  | @cons m n members named hm hnamed ih =>
      obtain ⟨hkey, hmv⟩ := hm
      obtain ⟨hv, hvalue⟩ := List.forall_mem_cons.mp hvalue
      by_cases heq : n.1 = name
      · have hvalues : valuesOf name (n :: named) = m.item.value :: valuesOf name named := by
          simp [valuesOf, heq, hmv]
        rw [hvalues] at hsettles ⊢
        obtain ⟨hfirst, hsettles⟩ := List.forall_mem_cons.mp hsettles
        have hpass (slots : others.Slots) : TakesItem (others.readMember levels n.1 slots) m.tail slots :=
          takesItem_readMember_of_not_mem (heq ▸ hname) hv slots
        constructor
        · intro h
          obtain ⟨slots, htakes, hmore⟩ := (takesMembers_cons_iff hkey).mp h
          rw [heq] at htakes
          obtain ⟨hslot, a, rfl, ha⟩ := (takesItem_readMember_of_eq_iff name absence others hskips hfirst).mp htakes
          obtain ⟨hfills, hothers⟩ := (ih hvalue hsettles).mp hmore
          exact ⟨fills_cons_iff.mpr ⟨hslot, a, ha, hfills⟩, .cons hkey (hpass rest) hothers⟩
        · rintro ⟨hfills, hothers⟩
          obtain ⟨hslot, a, ha, hfills⟩ := fills_cons_iff.mp hfills
          obtain ⟨rest₁, htakes, hothers⟩ := (takesMembers_cons_iff hkey).mp hothers
          obtain rfl := takesItem_unique (hpass rest) htakes
          have hfield : TakesItem ((cons name codec absence others).readMember levels n.1 (slot, rest)) m.tail
              (some a, rest) := by
            rw [heq]
            exact (takesItem_readMember_of_eq_iff name absence others hskips hfirst).mpr ⟨hslot, a, rfl, ha⟩
          exact .cons hkey hfield ((ih hvalue hsettles).mpr ⟨hfills, hothers⟩)
      · have hvalues : valuesOf name (n :: named) = valuesOf name named := by simp [valuesOf, heq]
        rw [hvalues] at hsettles ⊢
        constructor
        · intro h
          obtain ⟨slots, htakes, hmore⟩ := (takesMembers_cons_iff hkey).mp h
          obtain ⟨rest₁, rfl, hfirst⟩ := (takesItem_readMember_of_ne_iff heq).mp htakes
          obtain ⟨hfills, hothers⟩ := (ih hvalue hsettles).mp hmore
          exact ⟨hfills, .cons hkey hfirst hothers⟩
        · rintro ⟨hfills, hothers⟩
          obtain ⟨rest₁, hfirst, hothers⟩ := (takesMembers_cons_iff hkey).mp hothers
          exact .cons hkey ((takesItem_readMember_of_ne_iff heq).mpr ⟨rest₁, rfl, hfirst⟩)
            ((ih hvalue hsettles).mpr ⟨hfills, hothers⟩)

theorem takesMembers_nil (hnamed : Named members named) (hvalue : ∀ m ∈ members, IsValue m.item.value) :
    TakesMembers (Fields.nil.readMember levels) () members () := by
  induction hnamed with
  | nil => exact .nil ()
  | @cons m n members named hm hnamed ih =>
      obtain ⟨hv, hvalue⟩ := List.forall_mem_cons.mp hvalue
      have hfirst : TakesItem (Fields.nil.readMember levels n.1 ()) m.tail () :=
        @takesItem_readMember_of_not_mem _ levels n.1 m .nil List.not_mem_nil hv ()
      exact .cons hm.1 hfirst (ih hvalue)

end

/-! ### The fields behind all members -/

/-- What a field is, given these values for it: its value decodes, or it may be left out by name. -/
def FieldHolds (codec : Codec α) (absence : Absence α) (levels : Nat) (given : List (List UInt8)) (a : α) : Prop :=
  match given with
  | [] => absence.byName? = some a
  | [v] => codec.decodeAt levels v = .ok a
  | _ => False

/-- All fields hold with the values that the members give for them. -/
def Holds (levels : Nat) (named : List (String × List UInt8)) : {τ : Type} → Fields τ → τ → Prop
  | _, .nil, _ => True
  | _, .cons name codec absence others, (a, rest) =>
    FieldHolds codec absence levels (valuesOf name named) a ∧ others.Holds levels named rest

theorem finish_cons_eq_ok_iff {name : String} {codec : Codec α} {absence : Absence α} {others : Fields β}
    {slot : Option α} {rest : others.Slots} {a : α} {values : β} :
    (cons name codec absence others).finish (slot, rest) = .ok (a, values) ↔
      (slot = some a ∨ slot = none ∧ absence.byName? = some a) ∧ others.finish rest = .ok values := by
  have hothers (b : α) : (do return (b, ← others.finish rest)) = Except.ok (a, values) ↔
      b = a ∧ others.finish rest = .ok values := by
    cases others.finish rest with
    | error reason => exact ⟨(fun h => nomatch h), fun h => nomatch h.2⟩
    | ok values' => simp [bind, Except.bind, pure, Except.pure]
  cases slot with
  | some b =>
      have hslot : (some b = some a ∨ some b = none ∧ absence.byName? = some a) ↔ b = a := by simp
      rw [hslot]
      exact hothers b
  | none =>
      have hslot : (none = some a ∨ (none : Option α) = none ∧ absence.byName? = some a) ↔
          absence.byName? = some a := by simp
      rw [hslot]
      cases habsent : absence.byName? with
      | none => simp [finish, habsent, bind, Except.bind]
      | some b =>
          have hfinish : (cons name codec absence others).finish (none, rest) =
              (do return (b, ← others.finish rest)) := by
            simp only [finish, habsent]
            rfl
          rw [hfinish, hothers b, Option.some.injEq]

section

variable {levels : Nat} {members : List Member} {named : List (String × List UInt8)}

theorem fieldHolds_iff {codec : Codec α} {absence : Absence α} {given : List (List UInt8)} {a : α}
    (hskips : SkipsBlanks (codec.read levels)) (hsettles : ∀ v ∈ given, SettlesItem (codec.read levels) v) :
    FieldHolds codec absence levels given a ↔
      ∃ slot, Fills codec levels none given slot ∧ (slot = some a ∨ slot = none ∧ absence.byName? = some a) := by
  match given with
  | [] => simp [FieldHolds, Fills]
  | [v] =>
      have hdecode := decodeAt_value_eq_ok_iff (a := a) hskips (hsettles v List.mem_cons_self)
      simp [FieldHolds, Fills, hdecode]
  | _ :: _ :: _ => simp [FieldHolds, Fills]

/-- The value of every known member is settled, as a value of its field. -/
def SettlesMembers (levels : Nat) (members : List Member) (fs : Fields τ) : Prop :=
  ∀ ⦃β : Type⦄ ⦃key : String⦄ ⦃codec : Codec β⦄ ⦃place : Nat⦄, fs.Has key codec place →
    ∀ m ∈ members, Spells m.key key.toList → SettlesItem (codec.read levels) m.item.value

theorem exists_member_of_mem_valuesOf (hnamed : Named members named) {key : String} {v : List UInt8}
    (hv : v ∈ valuesOf key named) : ∃ m ∈ members, Spells m.key key.toList ∧ m.item.value = v := by
  induction hnamed with
  | nil => cases hv
  | @cons m n members named hm hnamed ih =>
      obtain ⟨n', hn', rfl⟩ := List.mem_map.mp hv
      obtain ⟨hmem, hkey⟩ := List.mem_filter.mp hn'
      rw [decide_eq_true_eq] at hkey
      rcases List.mem_cons.mp hmem with rfl | hmem
      · exact ⟨m, List.mem_cons_self, hkey ▸ hm.1, hm.2⟩
      · have hrest : n'.2 ∈ valuesOf key named :=
          List.mem_map_of_mem (List.mem_filter.mpr ⟨hmem, decide_eq_true hkey⟩)
        obtain ⟨m', hm', hspells⟩ := ih hrest
        exact ⟨m', List.mem_cons_of_mem m hm', hspells⟩

/-- The members fill the slots to a record exactly where all fields hold. -/
theorem exists_finish_iff_holds (fs : Fields τ) (hnames : fs.names.Nodup) (hfields : fs.Settle)
    (hnamed : Named members named) (hvalue : ∀ m ∈ members, IsValue m.item.value)
    (hsettles : fs.SettlesMembers levels members) {values : τ} :
    (∃ slots, TakesMembers (fs.readMember levels) fs.blank members slots ∧ fs.finish slots = .ok values) ↔
      fs.Holds levels named values := by
  induction fs with
  | nil => exact ⟨fun _ => trivial, fun _ => ⟨(), takesMembers_nil hnamed hvalue, rfl⟩⟩
  | @cons α β name codec absence others ih =>
      obtain ⟨a, values⟩ := values
      obtain ⟨hname, hnames⟩ := List.nodup_cons.mp hnames
      have hskips := hfields.1.skipsBlanks levels
      have hfirst : ∀ v ∈ valuesOf name named, SettlesItem (codec.read levels) v := fun v hv => by
        obtain ⟨m, hm, hkey, rfl⟩ := exists_member_of_mem_valuesOf hnamed hv
        exact hsettles .here m hm hkey
      have hothers : (∃ slots, TakesMembers (others.readMember levels) others.blank members slots ∧
          others.finish slots = .ok values) ↔ others.Holds levels named values :=
        ih hnames hfields.2 fun _ _ _ _ hfield => hsettles (.there hfield)
      have hfield : FieldHolds codec absence levels (valuesOf name named) a ↔ _ := fieldHolds_iff hskips hfirst
      constructor
      · rintro ⟨⟨slot, rest⟩, htakes, hfinish⟩
        obtain ⟨hfills, hmore⟩ := (takesMembers_field_iff hname hskips hnamed hvalue hfirst).mp htakes
        obtain ⟨hslot, hfinish⟩ := finish_cons_eq_ok_iff.mp hfinish
        exact ⟨hfield.mpr ⟨slot, hfills, hslot⟩, hothers.mp ⟨rest, hmore, hfinish⟩⟩
      · rintro ⟨hholds, hrest⟩
        obtain ⟨slot, hfills, hslot⟩ := hfield.mp hholds
        obtain ⟨rest, hmore, hfinish⟩ := hothers.mpr hrest
        exact ⟨(slot, rest), (takesMembers_field_iff hname hskips hnamed hvalue hfirst).mpr ⟨hfills, hmore⟩,
          finish_cons_eq_ok_iff.mpr ⟨hslot, hfinish⟩⟩

end

end Fields

/-! ### Records -/

section

variable {name : String} {fs : Fields τ} {make : τ → α} {parts : α → τ} {levels : Nat} {gap : List UInt8}
  {members : List Member} {named : List (String × List UInt8)}

theorem skipsBlanks_recordRead (levels : Nat) : SkipsBlanks ((record name fs make parts).read levels) :=
  (skipsBlanks_ahead _).located

theorem takes_recordRead {values : τ}
    (h : Takes (enclosed (fs.readMembers levels) endRecord) (gap ++ (joined (members.map Member.text) ++ [0x7d]))
      values) :
    Takes ((record name fs make parts).read (levels + 1)) (recordText gap members) (make values) :=
  .located (.of_goesOn (goesOn_ahead rfl) ((Takes.of_goesOn goesOn_eat h).map make))

theorem refuses_recordRead
    (h : Refuses (enclosed (fs.readMembers levels) endRecord) (gap ++ (joined (members.map Member.text) ++ [0x7d]))) :
    Refuses ((record name fs make parts).read (levels + 1)) (recordText gap members) :=
  .located (.of_goesOn (goesOn_ahead rfl) ((Refuses.of_goesOn goesOn_eat h).bind _))

theorem refuses_recordRead_zero : Refuses ((record name fs make parts).read 0) (recordText gap members) :=
  .located (.of_goesOn (goesOn_ahead rfl) (refuses_of_yields (Yields.map (.refuseNext .tooDeep) fun _ h => h) _))

theorem takes_of_listHolds {items : List Item} (hvalue : ∀ i ∈ items, IsValue i.value) (hgap : Blanks gap) {values : τ}
    (h : fs.ListHolds levels items values) :
    Takes ((record name fs make parts).read (levels + 1)) (listText gap items) (make values) := by
  obtain ⟨behindValue, hwalks⟩ :=
    @Fields.walks_readItems _ levels (itemsExpected name fs.names.length) fs items hvalue values h 0 false (.inr rfl)
  have hlist := takes_enclosed_of_walks hwalks hgap
  exact .located (.of_goesOn (goesOn_ahead rfl) ((Takes.of_goesOn goesOn_eat hlist).map make))

/-- A list is refused as a record, or all fields hold with its items. -/
theorem listHolds_or_refuses {items : List Item} (hvalue : ∀ i ∈ items, IsValue i.value) (hgap : Blanks gap)
    (hitems : ∀ {β : Type} {name : String} {codec : Codec β} {place : Nat}, fs.Has name codec place →
      ∀ i ∈ items[place]?, SettlesItem (codec.read levels) i.value) :
    (∃ values, fs.ListHolds levels items values) ∨
      Refuses ((record name fs make parts).read (levels + 1)) (listText gap items) := by
  have hrefuses
      (h : Refuses (enclosed (fs.readItems levels (itemsExpected name fs.names.length) 0) endList)
        (gap ++ (joined (items.map Item.text) ++ [0x5d]))) :
      Refuses ((record name fs make parts).read (levels + 1)) (listText gap items) :=
    .located (.of_goesOn (goesOn_ahead rfl) ((Refuses.of_goesOn goesOn_eat h).bind _))
  rcases @Fields.listHolds_or _ levels (itemsExpected name fs.names.length) fs items hvalue hitems 0 false
    (.inr rfl) with hholds | ⟨values, behindValue, i, left, hi, hwalks⟩ | hbalks
  · exact .inl hholds
  · exact .inr (hrefuses (refuses_enclosed_of_walks hwalks hi hgap))
  · exact .inr (hrefuses (refuses_enclosed_of_balks hbalks hgap))

theorem refuses_recordList_zero {items : List Item} :
    Refuses ((record name fs make parts).read 0) (listText gap items) :=
  .located (.of_goesOn (goesOn_ahead rfl) (refuses_of_yields (Yields.map (.refuseNext .tooDeep) fun _ h => h) _))

theorem readMembers_eq :
    fs.readMembers levels = loop (keyedStep (fs.readMember levels)) (true, fs.blank) >>= fun slots =>
      judged (fs.finish slots) := rfl

theorem takes_of_holds (hnames : fs.names.Nodup) (hfields : fs.Settle) (hnamed : Fields.Named members named)
    (hvalue : ∀ m ∈ members, IsValue m.item.value) (hsettles : fs.SettlesMembers levels members) (hgap : Blanks gap)
    {values : τ} (hholds : fs.Holds levels named values) :
    Takes ((record name fs make parts).read (levels + 1)) (recordText gap members) (make values) := by
  obtain ⟨slots, htakes, hfinish⟩ :=
    (Fields.exists_finish_iff_holds fs hnames hfields hnamed hvalue hsettles).mpr hholds
  refine takes_recordRead ?_
  rw [readMembers_eq]
  exact takes_keyed htakes (by rw [hfinish]; rfl) hgap

/-- A record is refused, or its members have names and all its fields hold. -/
theorem holds_or_refuses (hnames : fs.names.Nodup) (hfields : fs.Settle) (hvalue : ∀ m ∈ members, IsValue m.item.value)
    (hsettles : fs.SettlesMembers levels members) (hgap : Blanks gap) :
    (∃ named values, Fields.Named members named ∧ fs.Holds levels named values) ∨
      Refuses ((record name fs make parts).read (levels + 1)) (recordText gap members) := by
  have hmembers (m : Member) (hm : m ∈ members) (key : String) (slots : fs.Slots) (hkey : Spells m.key key.toList) :
      SettlesItem (fs.readMember levels key slots) m.tail :=
    Fields.settlesItem_readMember fs (hvalue m hm) hfields (fun hfield => hsettles hfield m hm hkey) slots
  rcases exists_takesMembers_or hmembers fs.blank with ⟨slots, htakes⟩ | ⟨front, m, back, slots, hsplit, hfront, hm⟩
  · obtain ⟨named, hnamed⟩ := Fields.exists_named_of_takesMembers htakes
    cases hfinish : fs.finish slots with
    | ok values =>
        have hholds := (Fields.exists_finish_iff_holds fs hnames hfields hnamed hvalue hsettles).mp
          ⟨slots, htakes, hfinish⟩
        exact .inl ⟨named, values, hnamed, hholds⟩
    | error reason =>
        refine .inr (refuses_recordRead ?_)
        rw [readMembers_eq]
        refine refuses_keyed_of_yields htakes ?_ hgap
        rw [hfinish]
        exact .refuseValue reason
  · refine .inr (refuses_recordRead ?_)
    rw [readMembers_eq]
    exact refuses_keyed hsplit hfront hm _ hgap

theorem settlesMembers_of_not_torn (hfields : fs.Settle) (hvalue : ∀ m ∈ members, IsValue m.item.value)
    (hsound : ¬Torn (record name fs make parts) (recordText gap members)) (levels : Nat) :
    fs.SettlesMembers levels members := fun _ _ _ _ hfield m hm hkey =>
  (hfields.of_has hfield).settlesItem levels (hvalue m hm) fun htorn => hsound (.member hfield hm hkey htorn)

theorem settlesItems_of_not_torn (hfields : fs.Settle) {items : List Item} (hvalue : ∀ i ∈ items, IsValue i.value)
    (hsound : ¬Torn (record name fs make parts) (listText gap items)) (levels : Nat) {key : String} {codec : Codec β}
    {place : Nat} (hfield : fs.Has key codec place) :
    ∀ i ∈ items[place]?, SettlesItem (codec.read levels) i.value := fun i hi =>
  (hfields.of_has hfield).settlesItem levels (hvalue i (List.mem_of_getElem? hi)) fun htorn =>
    hsound (.place hfield hi htorn)

/-- A record with members is taken or refused, at each number of levels. -/
theorem takes_or_refuses_record (hnames : fs.names.Nodup) (hfields : fs.Settle)
    (hvalue : ∀ m ∈ members, IsValue m.item.value)
    (hsound : ¬Torn (record name fs make parts) (recordText gap members)) (hgap : Blanks gap) (levels : Nat) :
    (∃ a, Takes ((record name fs make parts).read levels) (recordText gap members) a) ∨
      Refuses ((record name fs make parts).read levels) (recordText gap members) := by
  cases levels with
  | zero => exact .inr refuses_recordRead_zero
  | succ inner =>
      have hsettles := settlesMembers_of_not_torn hfields hvalue hsound inner
      rcases holds_or_refuses hnames hfields hvalue hsettles hgap with ⟨named, values, hnamed, hholds⟩ | hrefuses
      · exact .inl ⟨_, takes_of_holds hnames hfields hnamed hvalue hsettles hgap hholds⟩
      · exact .inr hrefuses

/-- What is neither a list nor a record is refused as a record. -/
theorem list_or_record_or_refuses {v : List UInt8} (hv : IsValue v) (levels : Nat) :
    (∃ gap items, Blanks gap ∧ (∀ i ∈ items, IsValue i.value) ∧ v = listText gap items) ∨
      (∃ o : Object, v = o.text) ∨ RefusesItem ((record name fs make parts).read levels) v := by
  have hunexpected {v : List UInt8} {r : Reader α} (hr : Yields r fun _ => False)
      (hgo : GoesOn ((record name fs make parts).read levels) v r v) :
      RefusesItem ((record name fs make parts).read levels) v := .of_goesOnItem hgo.item (refuses_of_yields hr v).item
  cases hv with
  | word h =>
      refine .inr (.inr ?_)
      simp only [words, List.mem_cons, List.not_mem_nil, or_false] at h
      rcases h with rfl | rfl | rfl <;>
        exact hunexpected (.located (.unexpected _)) (.located (goesOn_ahead rfl))
  | number h =>
      refine .inr (.inr ?_)
      obtain ⟨b, more, rfl, hb⟩ := h.exists_cons
      refine hunexpected (.located ?_) (.located (goesOn_ahead (isBlank_of_isOpening (isOpening_of_isDigit hb))))
      split
      · exact .refuseNext _
      iterate 2
        · rename_i heq
          exact absurd heq (ne_of_digit hb rfl)
      · exact .unexpected _
  | negative h => exact .inr (.inr (hunexpected (.located (.unexpected _)) (.located (goesOn_ahead rfl))))
  | text h => exact .inr (.inr (hunexpected (.located (.unexpected _)) (.located (goesOn_ahead rfl))))
  | @list gap items hgap hitems => exact .inl ⟨gap, items, hgap, hitems, rfl⟩
  | @record gap members hgap hmembers => exact .inr (.inl ⟨⟨gap, members, hgap, hmembers⟩, rfl⟩)

theorem record_settles (hnames : fs.names.Nodup) (hfields : fs.Settle) : (record name fs make parts).Settles where
  skipsBlanks := skipsBlanks_recordRead
  settlesItem levels v hv hsound := by
    rcases @list_or_record_or_refuses _ _ name fs make parts v hv levels with
      ⟨gap, items, hgap, hitems, rfl⟩ | ⟨o, rfl⟩ | hrefuses
    · cases levels with
      | zero => exact .inr refuses_recordList_zero.item
      | succ inner =>
          rcases listHolds_or_refuses hitems hgap (settlesItems_of_not_torn hfields hitems hsound inner) with
            ⟨values, hholds⟩ | hrefuses
          · exact .inl ⟨_, (takes_of_listHolds hitems hgap hholds).item⟩
          · exact .inr hrefuses.item
    · rcases takes_or_refuses_record hnames hfields o.isValue_members hsound o.blanks_gap levels with
        ⟨a, htakes⟩ | hrefuses
      · exact .inl ⟨a, htakes.item⟩
      · exact .inr hrefuses.item
    · exact .inr hrefuses

end

end ChainHead.Wire
