import ChainHead.Proofs.Wire.Layouts
import ChainHead.Proofs.Wire.Numbers

/-! Numbers wherever they stand in a text: as a member of an object or an item of a list that is read as a record, at
any depth. If the rest of the text is valid, the text decodes exactly with those values in that place that spell a
number, and the number is what is read from there. A text that is torn by a string that stands for no text may decode
without a look at the place. -/

namespace ChainHead

open Json Reader Wire

/-- An item with another value. -/
def Json.Item.withValue (i : Item) (v : List UInt8) : Item := { i with value := v }

/-- A member with another value. -/
def Json.Member.withValue (m : Member) (v : List UInt8) : Member := { m with item := m.item.withValue v }

namespace Wire

variable {α β γ τ : Type}

/-! ### One field among others -/

namespace Fields

/-- The names and codecs of the fields, in order. -/
def entries : {τ : Type} → Fields τ → List (Σ β : Type, String × Codec β)
  | _, .nil => []
  | _, .cons name codec _ others => ⟨_, name, codec⟩ :: others.entries

section

variable {fs : Fields τ} {name name' : String} {codec : Codec β} {codec' : Codec γ} {place place' : Nat}

theorem names_eq (fs : Fields τ) : fs.names = fs.entries.map fun e => e.2.1 := by
  induction fs with
  | nil => rfl
  | cons name codec absence others ih => rw [names, entries, List.map_cons, ih]

theorem Has.getElem?_entries (h : fs.Has name codec place) : fs.entries[place]? = some ⟨β, name, codec⟩ := by
  induction h with
  | here => rfl
  | there _ ih => exact ih

/-- There is one codec in each place. -/
theorem Has.of_place (h : fs.Has name codec place) (h' : fs.Has name' codec' place)
    {P : ∀ {δ : Type}, Codec δ → Prop} (hP : P codec) : P codec' := by
  have heq := h.getElem?_entries.symm.trans h'.getElem?_entries
  cases heq
  exact hP

/-- There is one codec for each name. -/
theorem Has.of_name (hnames : fs.names.Nodup) (h : fs.Has name codec place) (h' : fs.Has name codec' place')
    {P : ∀ {δ : Type}, Codec δ → Prop} (hP : P codec) : P codec' := by
  have hplace : fs.names[place]? = some name := by rw [names_eq, List.getElem?_map, h.getElem?_entries]; rfl
  have hplace' : fs.names[place']? = some name := by rw [names_eq, List.getElem?_map, h'.getElem?_entries]; rfl
  obtain ⟨hlt, -⟩ := List.getElem?_eq_some_iff.mp hplace
  obtain rfl := (List.getElem?_inj hlt hnames).mp (hplace.trans hplace'.symm)
  exact h.of_place h' hP

end

/-- A field with its place: how its value is got from the values of all fields, and how it is put among them. -/
inductive At {β : Type} (name : String) (codec : Codec β) :
    {τ : Type} → Fields τ → Nat → (τ → β) → (β → τ → τ) → Prop
  | here {γ : Type} {absence : Absence β} {others : Fields γ} :
      At name codec (.cons name codec absence others) 0 Prod.fst fun b values => (b, values.2)
  | there {β' γ : Type} {other : String} {c : Codec β'} {absence : Absence β'} {others : Fields γ} {place : Nat}
      {get : γ → β} {put : β → γ → γ} (h : At name codec others place get put) :
      At name codec (.cons other c absence others) (place + 1) (fun values => get values.2)
        fun b values => (values.1, put b values.2)

section

variable {fs : Fields τ} {name : String} {codec : Codec β} {place : Nat} {get : τ → β} {put : β → τ → τ} {b : β}
  {values : τ} {levels : Nat} {named named' : List (String × List UInt8)} {items front back : List Item} {i i' : Item}

theorem At.has (h : fs.At name codec place get put) : fs.Has name codec place := by
  induction h with
  | here => exact .here
  | there _ ih => exact .there ih

theorem At.get_put (h : fs.At name codec place get put) (b : β) (values : τ) : get (put b values) = b := by
  induction h with
  | here => rfl
  | there _ ih => exact ih values.2

theorem At.exists_fieldHolds (h : fs.At name codec place get put) (hholds : fs.Holds levels named values) :
    ∃ absence, FieldHolds codec absence levels (valuesOf name named) (get values) := by
  induction h with
  | here => exact ⟨_, hholds.1⟩
  | there _ ih => exact ih hholds.2

/-- Where all fields hold, they hold with another value for one of them. -/
theorem At.holds_put (h : fs.At name codec place get put) (hnames : fs.names.Nodup)
    (hholds : fs.Holds levels named values) (hothers : ∀ key ≠ name, valuesOf key named' = valuesOf key named)
    (hfield : ∀ absence, FieldHolds codec absence levels (valuesOf name named') b) :
    fs.Holds levels named' (put b values) := by
  induction h with
  | here =>
      refine ⟨hfield _, holds_of_perm (fun key hkey => ?_) hholds.2⟩
      rw [hothers key fun heq => (List.nodup_cons.mp hnames).1 (heq ▸ hkey)]
  | @there β' γ' other c absence others place get put h ih =>
      obtain ⟨hnot, hnames⟩ := List.nodup_cons.mp hnames
      have hne : other ≠ name := by
        rintro rfl
        exact hnot (mem_names_of_has h.has)
      refine ⟨?_, ih hnames hholds.2⟩
      rw [hothers other hne]
      exact hholds.1

theorem At.takesItem (h : fs.At name codec place get put) (hholds : fs.ListHolds levels items values)
    (hi : items[place]? = some i) : TakesItem (codec.read levels) i.value (get values) := by
  induction h generalizing items with
  | here =>
      cases items with
      | nil => cases hi
      | cons j items =>
          cases hi
          exact hholds.1
  | there _ ih =>
      cases items with
      | nil => cases hi
      | cons j items => exact ih hholds.2 hi

/-- Where all fields hold with the items of a list, they hold with another item for one of them. -/
theorem At.listHolds_put (h : fs.At name codec place get put) (hplace : front.length = place)
    (hholds : fs.ListHolds levels (front ++ i :: back) values) (hb : TakesItem (codec.read levels) i'.value b) :
    fs.ListHolds levels (front ++ i' :: back) (put b values) := by
  induction h generalizing front with
  | here =>
      obtain rfl := List.length_eq_zero_iff.mp hplace
      exact ⟨hb, hholds.2⟩
  | there _ ih =>
      cases front with
      | nil => cases hplace
      | cons j front => exact ⟨hholds.1, ih (Nat.succ.inj hplace) hholds.2⟩

end

end Fields

/-! ### Places -/

/-- A place for a number in the text of a value: the text with something there, and what a value has there. The place is
that of a field of a record, among the members of an object or the items of a list, and the record may be an item of a
list or a field of another record. -/
inductive NumberPlace : {α : Type} → Codec α → (List UInt8 → List UInt8) → (α → Option UInt64) → Prop
  | here : NumberPlace quoted id some
  | optional {α : Type} {c : Codec α} {fill : List UInt8 → List UInt8} {read : α → Option UInt64}
      (hne : ∀ v, fill v ≠ nullText) (h : NumberPlace c fill read) :
      NumberPlace (optional c) fill fun a => a.bind read
  | item {α : Type} {c : Codec α} {fill : List UInt8 → List UInt8} {read : α → Option UInt64} {gap : List UInt8}
      {front back : List Item} {i : Item} (hgap : Blanks gap) (hitems : ∀ j ∈ front ++ back, IsValue j.value)
      (h : NumberPlace c fill read) :
      NumberPlace (list c) (fun v => listText gap (front ++ i.withValue (fill v) :: back)) fun as =>
        as[front.length]?.bind read
  | member {α β : Type} {c : Codec α} {l : Layout c} {name : String} {codec : Codec β} {place : Nat} {get : l.τ → β}
      {put : β → l.τ → l.τ} {field : α → β} {fill : List UInt8 → List UInt8} {read : β → Option UInt64}
      {gap : List UInt8} {front back : List Member} {m : Member} (hl : IsWire l)
      (hfield : l.fields.At name codec place get put) (hmake : ∀ values, field (l.make values) = get values)
      (hgap : Blanks gap) (hmembers : ∀ m' ∈ front ++ back, IsValue m'.item.value) (hkey : Spells m.key name.toList)
      (h : NumberPlace codec fill read) :
      NumberPlace c (fun v => recordText gap (front ++ m.withValue (fill v) :: back)) fun a => read (field a)
  | listed {α β : Type} {c : Codec α} {l : Layout c} {name : String} {codec : Codec β} {get : l.τ → β}
      {put : β → l.τ → l.τ} {field : α → β} {fill : List UInt8 → List UInt8} {read : β → Option UInt64}
      {gap : List UInt8} {front back : List Item} {i : Item} (hl : IsWire l)
      (hfield : l.fields.At name codec front.length get put) (hmake : ∀ values, field (l.make values) = get values)
      (hgap : Blanks gap) (hitems : ∀ j ∈ front ++ back, IsValue j.value) (h : NumberPlace codec fill read) :
      NumberPlace c (fun v => listText gap (front ++ i.withValue (fill v) :: back)) fun a => read (field a)

section

variable {c : Codec α} {fill : List UInt8 → List UInt8} {read : α → Option UInt64} {levels : Nat}

theorem forall_mem_parted {P : α → Prop} {front back : List α} {a : α} (h : ∀ b ∈ front ++ back, P b) (ha : P a) :
    ∀ b ∈ front ++ a :: back, P b := by
  intro b hb
  rcases List.mem_append.mp hb with hb | hb
  · exact h b (List.mem_append_left _ hb)
  · rcases List.mem_cons.mp hb with rfl | hb
    · exact ha
    · exact h b (List.mem_append_right _ hb)

theorem getElem?_parted (front back : List α) (a : α) : (front ++ a :: back)[front.length]? = some a := by
  rw [List.getElem?_append_right (Nat.le_refl _), Nat.sub_self]
  rfl

theorem NumberPlace.isValue (h : NumberPlace c fill read) {v : List UInt8} (hv : IsValue v) : IsValue (fill v) := by
  induction h with
  | here => exact hv
  | optional _ _ ih => exact ih
  | item hgap hitems _ ih => exact .list hgap (forall_mem_parted hitems ih)
  | member _ _ _ hgap hmembers _ _ ih => exact .record hgap (forall_mem_parted hmembers ih)
  | listed _ _ _ hgap hitems _ ih => exact .list hgap (forall_mem_parted hitems ih)

theorem NumberPlace.settles (h : NumberPlace c fill read) : c.Settles := by
  induction h with
  | here => exact quoted_settles
  | optional _ _ ih => exact optional_settles ih
  | item _ _ _ ih => exact list_settles ih
  | member hl => exact hl.wellFormed.settles
  | listed hl => exact hl.wellFormed.settles

/-- A text with a place in it is taken with the values that spell a number there, and what is read has that number in
this place. With every other value there it is refused. -/
def Carries (c : Codec α) (levels : Nat) (fill : List UInt8 → List UInt8) (read : α → Option UInt64) : Prop :=
  ∃ make : UInt64 → α, (∀ n, read (make n) = some n) ∧
    (∀ v n, SpellsNumber v n → TakesItem (c.read levels) (fill v) (make n)) ∧
    ∀ v, IsValue v → (∀ n, ¬SpellsNumber v n) → RefusesItem (c.read levels) (fill v)

theorem Carries.settlesItem (h : Carries c levels fill read) {v : List UInt8} (hv : IsValue v) :
    SettlesItem (c.read levels) (fill v) := by
  obtain ⟨make, -, htakes, hrefuses⟩ := h
  by_cases hspells : ∃ n, SpellsNumber v n
  · obtain ⟨n, hn⟩ := hspells
    exact .inl ⟨make n, htakes v n hn⟩
  · exact .inr (hrefuses v hv (not_exists.mp hspells))

theorem carries_quoted (levels : Nat) : Carries quoted levels id some :=
  ⟨id, fun _ => rfl, fun _ _ h => takesItem_quoted h levels, fun _ hv hnone =>
    (spells_or_refuses hv levels).resolve_left (not_exists.mpr hnone)⟩

/-! ### Values that may be missing, and the items of lists -/

theorem Carries.optional (h : Carries c levels fill read) (hfill : ∀ {v}, IsValue v → IsValue (fill v))
    (hne : ∀ v, fill v ≠ nullText) : Carries (optional c) levels fill fun a => a.bind read := by
  obtain ⟨make, hread, htakes, hrefuses⟩ := h
  have hgo {v : List UInt8} (hv : IsValue v) :
      GoesOnItem ((Wire.optional c).read levels) (fill v) (some <$> c.read levels) (fill v) :=
    (goesOn_optionalRead (hfill hv) (hne v)).item
  refine ⟨fun n => some (make n), hread, fun v n hn => ?_, fun v hv hnone => ?_⟩
  · exact .of_goesOnItem (hgo hn.isValue) ((htakes v n hn).map some)
  · exact .of_goesOnItem (hgo hv) ((hrefuses v hv hnone).bind _)

theorem exists_of_forall₂_parted {R : α → β → Prop} {front back : List α} {a : α} {bs : List β}
    (h : List.Forall₂ R (front ++ a :: back) bs) :
    ∃ bf b bb, bs = bf ++ b :: bb ∧ List.Forall₂ R front bf ∧ R a b ∧ List.Forall₂ R back bb := by
  induction front generalizing bs with
  | nil =>
      cases h with
      | @cons _ b _ bb hb hback => exact ⟨[], b, bb, rfl, .nil, hb, hback⟩
  | cons a' front ih =>
      cases h with
      | @cons _ b' _ bs hb' h =>
          obtain ⟨bf, b, bb, rfl, hfront, hb, hback⟩ := ih h
          exact ⟨b' :: bf, b, bb, rfl, .cons hb' hfront, hb, hback⟩

theorem Carries.item (h : Carries c levels fill read) (hfill : ∀ {v}, IsValue v → IsValue (fill v)) {gap : List UInt8}
    {front back : List Item} {i : Item} {before behind : List α} (hgap : Blanks gap)
    (hitems : ∀ j ∈ front ++ back, IsValue j.value) (hfront : TakesItems (c.read levels) front before)
    (hback : TakesItems (c.read levels) back behind) :
    Carries (list c) (levels + 1) (fun v => listText gap (front ++ i.withValue (fill v) :: back)) fun as =>
      as[front.length]?.bind read := by
  obtain ⟨make, hread, htakes, hrefuses⟩ := h
  have hvalue {v : List UInt8} (hv : IsValue v) : ∀ j ∈ front ++ i.withValue (fill v) :: back, IsValue j.value :=
    forall_mem_parted hitems (hfill hv)
  refine ⟨fun n => before ++ make n :: behind, fun n => ?_, fun v n hn => ?_, fun v hv hnone => ?_⟩
  · have hplace : (before ++ make n :: behind)[front.length]? = some (make n) := by
      rw [hfront.length_eq]
      exact getElem?_parted before behind (make n)
    change ((before ++ make n :: behind)[front.length]?).bind read = some n
    rw [hplace]
    exact hread n
  · exact (takes_listRead (hvalue hn.isValue) hgap (List.rel_append hfront (.cons (htakes v n hn) hback))).item
  · exact (refuses_listRead (hvalue hv) hgap rfl hfront (hrefuses v hv hnone)).item

/-! ### The fields of records -/

section

variable {name key : String} {fs : Fields τ} {make : τ → α} {parts : α → τ} {codec : Codec β} {place : Nat}
  {get : τ → β} {put : β → τ → τ} {field : α → β} {part : β → Option UInt64} {gap : List UInt8}

theorem valuesOf_parted_self (key : String) (before behind : List (String × List UInt8)) (v : List UInt8) :
    Fields.valuesOf key (before ++ (key, v) :: behind) =
      Fields.valuesOf key before ++ v :: Fields.valuesOf key behind := by
  simp [Fields.valuesOf]

theorem valuesOf_parted_of_ne {key' : String} (h : key' ≠ key) (before behind : List (String × List UInt8))
    (v : List UInt8) :
    Fields.valuesOf key' (before ++ (key, v) :: behind) =
      Fields.valuesOf key' before ++ Fields.valuesOf key' behind := by
  simp [Fields.valuesOf, h.symm]

/-- A field holds with one value only. -/
theorem fieldHolds_parted {absence : Absence β} {before behind : List (List UInt8)} {v : List UInt8} {b : β}
    (h : Fields.FieldHolds codec absence levels (before ++ v :: behind) b) :
    before = [] ∧ behind = [] ∧ codec.decodeAt levels v = .ok b := by
  match before, behind with
  | [], [] => exact ⟨rfl, rfl, h⟩
  | [], _ :: _ => exact h.elim
  | [_], _ => exact h.elim
  | _ :: _ :: _, _ => exact h.elim

/-- The members of a record with a place among them, and their names. -/
theorem named_parted {front back : List Member} {m : Member} (hkey : Spells m.key key.toList) {v : List UInt8}
    {named : List (String × List UInt8)} (h : Fields.Named (front ++ m.withValue v :: back) named) :
    ∃ before behind, named = before ++ (key, v) :: behind ∧ Fields.Named front before ∧ Fields.Named back behind := by
  obtain ⟨before, ⟨key', v'⟩, behind, rfl, hfront, ⟨hkey', hv⟩, hback⟩ := exists_of_forall₂_parted h
  obtain rfl := Fields.eq_of_spells hkey hkey'
  obtain rfl : v = v' := hv
  exact ⟨before, behind, rfl, hfront, hback⟩

theorem settlesMembers_parted (hnames : fs.names.Nodup) (hhas : fs.Has key codec place) {front back : List Member}
    {m : Member} (hkey : Spells m.key key.toList) {v w : List UInt8} (hv : SettlesItem (codec.read levels) v)
    (h : fs.SettlesMembers levels (front ++ m.withValue w :: back)) :
    fs.SettlesMembers levels (front ++ m.withValue v :: back) := by
  intro γ key' codec' place' hhas' m' hm' hkey'
  rcases List.mem_append.mp hm' with hm' | hm'
  · exact h hhas' m' (List.mem_append_left _ hm') hkey'
  · rcases List.mem_cons.mp hm' with rfl | hm'
    · obtain rfl := Fields.eq_of_spells hkey hkey'
      exact hhas.of_name hnames hhas' (P := fun c => SettlesItem (c.read levels) v) hv
    · exact h hhas' m' (List.mem_append_right _ (List.mem_cons_of_mem _ hm')) hkey'

/-- Where a record with a place among its members is taken, its fields hold, and what is in that place is taken as the
value of its field. -/
theorem exists_holds_of_takesItem (hnames : fs.names.Nodup) (hfields : fs.Settle)
    (hfield : fs.At key codec place get put) {front back : List Member} {m : Member} (hgap : Blanks gap)
    (hkey : Spells m.key key.toList) {v : List UInt8}
    (hvalue : ∀ m' ∈ front ++ m.withValue v :: back, IsValue m'.item.value)
    (hsettles : fs.SettlesMembers levels (front ++ m.withValue v :: back)) {a : α}
    (h : TakesItem ((record name fs make parts).read (levels + 1))
      (recordText gap (front ++ m.withValue v :: back)) a) :
    ∃ before behind values, Fields.Named front before ∧ Fields.Named back behind ∧
      Fields.valuesOf key before = [] ∧ Fields.valuesOf key behind = [] ∧
      fs.Holds levels (before ++ (key, v) :: behind) values ∧ TakesItem (codec.read levels) v (get values) := by
  obtain ⟨named, values, hnamed, hholds⟩ := (holds_or_refuses hnames hfields hvalue hsettles hgap).resolve_right
    fun hrefuses => not_takesItem_of_refusesItem hrefuses.item a h
  obtain ⟨before, behind, rfl, hfront, hback⟩ := named_parted hkey hnamed
  obtain ⟨absence, hholdsAt⟩ := hfield.exists_fieldHolds hholds
  rw [valuesOf_parted_self] at hholdsAt
  obtain ⟨hbefore, hbehind, hdecode⟩ := fieldHolds_parted hholdsAt
  have hm : m.withValue v ∈ front ++ m.withValue v :: back := List.mem_append_right _ List.mem_cons_self
  have hcodec := hfields.of_has hfield.has
  have htakes := (decodeAt_value_eq_ok_iff (hcodec.skipsBlanks levels) (hsettles hfield.has _ hm hkey)).mp hdecode
  exact ⟨before, behind, values, hfront, hback, hbefore, hbehind, hholds, htakes⟩

/-- A field carries a number among the members of a record as it does by itself. -/
theorem Carries.member (hnames : fs.names.Nodup) (hfields : fs.Settle) (hfield : fs.At key codec place get put)
    (hmake : ∀ values, field (make values) = get values) (hgap : Blanks gap) {front back : List Member} {m : Member}
    (hmembers : ∀ m' ∈ front ++ back, IsValue m'.item.value) (hkey : Spells m.key key.toList)
    (hfill : ∀ {v}, IsValue v → IsValue (fill v)) {w : List UInt8} (hw : IsValue w)
    (hsound : ¬Torn (record name fs make parts) (recordText gap (front ++ m.withValue (fill w) :: back))) {a : α}
    (htakes : TakesItem ((record name fs make parts).read (levels + 1))
      (recordText gap (front ++ m.withValue (fill w) :: back)) a)
    (hcodec : ∀ b, TakesItem (codec.read levels) (fill w) b → Carries codec levels fill part) :
    Carries (record name fs make parts) (levels + 1)
      (fun v => recordText gap (front ++ m.withValue (fill v) :: back)) fun a => part (field a) := by
  have hvalue {v : List UInt8} (hv : IsValue v) : ∀ m' ∈ front ++ m.withValue (fill v) :: back, IsValue m'.item.value :=
    forall_mem_parted hmembers (hfill hv)
  have hsettles := settlesMembers_of_not_torn hfields (hvalue hw) hsound levels
  obtain ⟨before, behind, values, hfront, hback, hbefore, hbehind, hholds, hb⟩ :=
    exists_holds_of_takesItem hnames hfields hfield hgap hkey (hvalue hw) hsettles htakes
  have hcarries := hcodec _ hb
  -- the other members are settled as with the first value, and the changed one by what its codec carries
  have hsettled {v : List UInt8} (hv : IsValue v) : fs.SettlesMembers levels (front ++ m.withValue (fill v) :: back) :=
    settlesMembers_parted hnames hfield.has hkey (hcarries.settlesItem hv) hsettles
  obtain ⟨number, hread, htakes, hrefuses⟩ := hcarries
  refine ⟨fun n => make (put (number n) values), fun n => ?_, fun v n hn => ?_, fun v hv hnone => ?_⟩
  · change part (field (make (put (number n) values))) = some n
    rw [hmake, hfield.get_put, hread]
  · have hnamed : Fields.Named (front ++ m.withValue (fill v) :: back) (before ++ (key, fill v) :: behind) :=
      List.rel_append hfront (.cons ⟨hkey, rfl⟩ hback)
    have hput : fs.Holds levels (before ++ (key, fill v) :: behind) (put (number n) values) := by
      refine hfield.holds_put hnames hholds (fun key' hne => ?_) fun absence => ?_
      · rw [valuesOf_parted_of_ne hne, valuesOf_parted_of_ne hne]
      · rw [valuesOf_parted_self, hbefore, hbehind]
        exact (decodeAt_value_eq_ok_iff ((hfields.of_has hfield.has).skipsBlanks levels)
          (.inl ⟨_, htakes v n hn⟩)).mpr (htakes v n hn)
    exact (takes_of_holds hnames hfields hnamed (hvalue hn.isValue) (hsettled hn.isValue) hgap hput).item
  · rcases holds_or_refuses hnames hfields (hvalue hv) (hsettled hv) hgap with
      ⟨named, values', hnamed, hholds'⟩ | hrefused
    · have htakes' : TakesItem ((record name fs make parts).read (levels + 1)) _ _ :=
        (takes_of_holds hnames hfields hnamed (hvalue hv) (hsettled hv) hgap hholds').item
      obtain ⟨_, _, _, -, -, -, -, -, hb'⟩ :=
        exists_holds_of_takesItem hnames hfields hfield hgap hkey (hvalue hv) (hsettled hv) htakes'
      exact absurd hb' (not_takesItem_of_refusesItem (hrefuses v hv hnone) _)
    · exact hrefused.item

theorem settlesItems_parted (hhas : fs.Has key codec place) {front back : List Item} (hplace : front.length = place)
    {i : Item} {v w : List UInt8} (hv : SettlesItem (codec.read levels) v)
    (h : ∀ {γ : Type} {name : String} {codec : Codec γ} {place : Nat}, fs.Has name codec place →
      ∀ j ∈ (front ++ i.withValue w :: back)[place]?, SettlesItem (codec.read levels) j.value)
    {codec' : Codec γ} {key' : String} {place' : Nat} (hhas' : fs.Has key' codec' place') :
    ∀ j ∈ (front ++ i.withValue v :: back)[place']?, SettlesItem (codec'.read levels) j.value := by
  intro j hj
  by_cases hplaces : place' = place
  · subst hplaces hplace
    cases hj.symm.trans (getElem?_parted front back (i.withValue v))
    exact hhas.of_place hhas' (P := fun c => SettlesItem (c.read levels) v) hv
  · refine h hhas' j ?_
    subst hplace
    rcases Nat.lt_or_gt_of_ne hplaces with hlt | hlt
    · rwa [List.getElem?_append_left hlt] at hj ⊢
    · rw [List.getElem?_append_right (Nat.le_of_lt hlt)] at hj ⊢
      obtain ⟨k, hk⟩ : ∃ k, place' - front.length = k + 1 := ⟨place' - front.length - 1, by omega⟩
      rwa [hk] at hj ⊢

/-- A field carries a number among the items of a list that is read as a record as it does by itself. -/
theorem Carries.listed (hfields : fs.Settle) {front back : List Item} {i : Item}
    (hfield : fs.At key codec front.length get put) (hmake : ∀ values, field (make values) = get values)
    (hgap : Blanks gap) (hitems : ∀ j ∈ front ++ back, IsValue j.value)
    (hfill : ∀ {v}, IsValue v → IsValue (fill v)) {w : List UInt8} (hw : IsValue w)
    (hsound : ¬Torn (record name fs make parts) (listText gap (front ++ i.withValue (fill w) :: back))) {a : α}
    (htakes : TakesItem ((record name fs make parts).read (levels + 1))
      (listText gap (front ++ i.withValue (fill w) :: back)) a)
    (hcodec : ∀ b, TakesItem (codec.read levels) (fill w) b → Carries codec levels fill part) :
    Carries (record name fs make parts) (levels + 1)
      (fun v => listText gap (front ++ i.withValue (fill v) :: back)) fun a => part (field a) := by
  have hvalue {v : List UInt8} (hv : IsValue v) : ∀ j ∈ front ++ i.withValue (fill v) :: back, IsValue j.value :=
    forall_mem_parted hitems (hfill hv)
  have hplace (v : List UInt8) := getElem?_parted front back (i.withValue (fill v))
  have hor {v : List UInt8} (hv : IsValue v) : _ → (∃ values, fs.ListHolds levels _ values) ∨
      Refuses ((record name fs make parts).read (levels + 1))
        (listText gap (front ++ i.withValue (fill v) :: back)) := listHolds_or_refuses (hvalue hv) hgap
  obtain ⟨values, hholds⟩ := (hor hw (settlesItems_of_not_torn hfields (hvalue hw) hsound levels)).resolve_right
    fun hrefuses => not_takesItem_of_refusesItem hrefuses.item a htakes
  have hcarries := hcodec _ (hfield.takesItem hholds (hplace w))
  have hsettled {v : List UInt8} (hv : IsValue v) := hcarries.settlesItem hv
  obtain ⟨number, hread, htakes, hrefuses⟩ := hcarries
  refine ⟨fun n => make (put (number n) values), fun n => ?_, fun v n hn => ?_, fun v hv hnone => ?_⟩
  · change part (field (make (put (number n) values))) = some n
    rw [hmake, hfield.get_put, hread]
  · have hput : fs.ListHolds levels (front ++ i.withValue (fill v) :: back) _ :=
      hfield.listHolds_put rfl hholds (htakes v n hn)
    exact (takes_of_listHolds (hvalue hn.isValue) hgap hput).item
  · have hsettles {γ : Type} {name : String} {codec' : Codec γ} {place : Nat} (hhas : fs.Has name codec' place) :=
      settlesItems_parted hfield.has rfl (hsettled hv)
        (settlesItems_of_not_torn hfields (hvalue hw) hsound levels) hhas
    rcases hor hv hsettles with ⟨values', hholds'⟩ | hrefused
    · have hb' := hfield.takesItem hholds' (hplace v)
      exact absurd hb' (not_takesItem_of_refusesItem (hrefuses v hv hnone) _)
    · exact hrefused.item

end

/-! ### Numbers in any place -/

/-- If a text is taken with some value in a place for a number, the text carries numbers there. -/
theorem NumberPlace.carries (h : NumberPlace c fill read) {w : List UInt8} (hw : IsValue w) (hsound : ¬Torn c (fill w))
    {a : α} (htakes : TakesItem (c.read levels) (fill w) a) : Carries c levels fill read := by
  induction h generalizing levels with
  | here => exact carries_quoted levels
  | optional hne h ih =>
      have hvalue := h.isValue hw
      rcases h.settles.settlesItem levels hvalue fun htorn => hsound (.optional htorn) with ⟨b, hb⟩ | hrefuses
      · exact (ih (fun htorn => hsound (.optional htorn)) hb).optional h.isValue hne
      · have hrefused := RefusesItem.of_goesOnItem (goesOn_optionalRead hvalue (hne w)).item (hrefuses.bind _)
        exact absurd htakes (not_takesItem_of_refusesItem hrefused a)
  | @item α c fill read gap front back i hgap hitems h ih =>
      cases levels with
      | zero => exact absurd htakes (not_takesItem_of_refusesItem refuses_listRead_zero.item a)
      | succ inner =>
          have hvalue : ∀ j ∈ front ++ i.withValue (fill w) :: back, IsValue j.value :=
            forall_mem_parted hitems (h.isValue hw)
          obtain ⟨values, hvalues⟩ := (takesItems_or_refuses h.settles hvalue hgap hsound).resolve_right
            fun hrefuses => not_takesItem_of_refusesItem hrefuses.item a htakes
          obtain ⟨before, b, behind, rfl, hfront, hb, hback⟩ := exists_of_forall₂_parted hvalues
          have hinner := ih (fun htorn => hsound (.item (List.mem_append_right _ List.mem_cons_self) htorn)) hb
          exact hinner.item h.isValue hgap hitems hfront hback
  | @member α β c l name codec place get put field fill read gap front back m hl hfield hmake hgap hmembers hkey h ih =>
      obtain ⟨hnames, hfields, -⟩ := hl.wellFormed
      obtain ⟨record, fields, make, parts, rfl⟩ := l
      cases levels with
      | zero => exact absurd htakes (not_takesItem_of_refusesItem refuses_recordRead_zero.item a)
      | succ inner =>
          have hm : m.withValue (fill w) ∈ front ++ m.withValue (fill w) :: back :=
            List.mem_append_right _ List.mem_cons_self
          exact .member hnames hfields hfield hmake hgap hmembers hkey h.isValue hw hsound htakes fun b hb =>
            ih (fun htorn => hsound (.member hfield.has hm hkey htorn)) hb
  | @listed α β c l name codec get put field fill read gap front back i hl hfield hmake hgap hitems h ih =>
      obtain ⟨-, hfields, -⟩ := hl.wellFormed
      obtain ⟨record, fields, make, parts, rfl⟩ := l
      cases levels with
      | zero => exact absurd htakes (not_takesItem_of_refusesItem refuses_recordList_zero.item a)
      | succ inner =>
          have hi := getElem?_parted front back (i.withValue (fill w))
          exact .listed hfields hfield hmake hgap hitems h.isValue hw hsound htakes fun b hb =>
            ih (fun htorn => hsound (.place hfield.has hi htorn)) hb

/-- The rest of a text is valid if the text decodes with some value in a place for a number, and no string that stands
for no text tears it. Then it decodes with just the values that spell a number, to something that has this number
there, and is refused with every other value. Two values that spell the same number make no difference. -/
theorem numbers_are_exact (h : NumberPlace c fill read) {before behind w : List UInt8} {a : α} (hbefore : Blanks before)
    (hbehind : Blanks behind) (hw : IsValue w) (hsound : ¬Torn c (fill w))
    (hrest : c.decodeAt levels (before ++ (fill w ++ behind)) = .ok a) :
    (∀ v n, IsValue v → ((∃ a, c.decodeAt levels (before ++ (fill v ++ behind)) = .ok a ∧ read a = some n) ↔
      SpellsNumber v n)) ∧
    (∀ v, IsValue v → (∀ n, ¬SpellsNumber v n) →
      ∃ e, c.decodeAt levels (before ++ (fill v ++ behind)) = .error e) ∧
    ∀ v v' n, SpellsNumber v n → SpellsNumber v' n →
      c.decodeAt levels (before ++ (fill v ++ behind)) = c.decodeAt levels (before ++ (fill v' ++ behind)) := by
  have hskips := h.settles.skipsBlanks levels
  have hwhole := h.settles.settlesItem levels (h.isValue hw) hsound
  have hcarries := h.carries hw hsound ((decodeAt_eq_ok_iff hskips hwhole hbefore hbehind).mp hrest)
  have hsettles {v : List UInt8} (hv : IsValue v) := hcarries.settlesItem hv
  obtain ⟨make, hread, htakes, hrefuses⟩ := hcarries
  have hdecodes {v : List UInt8} {n : UInt64} (hn : SpellsNumber v n) :
      c.decodeAt levels (before ++ (fill v ++ behind)) = .ok (make n) :=
    decodeAt_of_takesItem hskips (htakes v n hn) hbefore hbehind
  have hrefused {v : List UInt8} (hv : IsValue v) (hnone : ∀ n, ¬SpellsNumber v n) :=
    decodeAt_of_refusesItem hskips (hrefuses v hv hnone) hbefore hbehind
  refine ⟨fun v n hv => ⟨?_, fun hn => ⟨make n, hdecodes hn, hread n⟩⟩, fun v => hrefused, fun v v' n hn hn' => ?_⟩
  · rintro ⟨a, ha, hn⟩
    by_cases hspells : ∃ k, SpellsNumber v k
    · obtain ⟨k, hk⟩ := hspells
      cases ha.symm.trans (hdecodes hk)
      cases hn.symm.trans (hread k)
      exact hk
    · obtain ⟨e, he⟩ := hrefused hv (not_exists.mp hspells)
      cases ha.symm.trans he
  · rw [hdecodes hn, hdecodes hn']

end

end Wire

namespace HeadEvent

theorem unescaped_data : Unescaped "data".toList := by decide

theorem unescaped_slot : Unescaped "slot".toList := by decide

theorem unescaped_block : Unescaped "block".toList := by decide

theorem unescaped_state : Unescaped "state".toList := by decide

/-- A head with something for its slot. -/
def withSlot (slot : List UInt8) : List UInt8 :=
  recordText [] ([] ++ (Member.bare "slot" [] unescaped_slot).withValue slot ::
    [.bare "block" (bareText ['b']) unescaped_block, .bare "state" (bareText ['s']) unescaped_state])

def wrapped (slot : List UInt8) : List UInt8 :=
  recordText [] ([] ++ (Member.bare "data" [] unescaped_data).withValue (withSlot slot) :: [])

theorem numberPlace_withSlot : NumberPlace codec withSlot fun e => some e.slot := by
  refine .member .headEvent .here (fun values => rfl) blanks_nil ?_ (spells_encode unescaped_slot) .here
  refine List.forall_mem_cons.mpr ⟨isValue_bareText (by decide), ?_⟩
  exact List.forall_mem_singleton.mpr (isValue_bareText (by decide))

theorem numberPlace_wrapped : NumberPlace (enveloped codec) wrapped fun e => some e.slot := by
  have hdata (values : (Layout.enveloped codec).τ) : id ((Layout.enveloped codec).make values) = values.1 := rfl
  have hothers : ∀ m ∈ ([] ++ [] : List Member), IsValue m.item.value := fun _ h => nomatch h
  have hplace := NumberPlace.member (m := .bare "data" [] unescaped_data) (.enveloped .headEvent) .here hdata blanks_nil
    hothers (spells_encode unescaped_data) numberPlace_withSlot
  exact hplace

theorem decode_wrapped :
    (∃ e, (enveloped codec).decode (wrapped (bareText ['+', '0', '0', '7'])) = .ok e ∧ some e.slot = some 7) ∧
      ∃ e, (enveloped codec).decode (wrapped [0x2d, 0x30]) = .error e := by
  have hdecode (bytes : List UInt8) :
      (enveloped codec).decode bytes = (enveloped codec).decodeAt Reader.levels bytes := rfl
  have hsound : ¬Torn (enveloped codec) (wrapped [0x30]) := fun h => absurd (mem_of_torn h) (by decide)
  have hrest : (enveloped codec).decodeAt Reader.levels ([] ++ (wrapped [0x30] ++ [])) = .ok ⟨0, "b", "s"⟩ := by
    decide +kernel
  obtain ⟨hexact, hrefused, -⟩ :=
    numbers_are_exact numberPlace_wrapped blanks_nil blanks_nil (isValue_digit (by decide)) hsound hrest
  simp only [List.nil_append, List.append_nil] at hexact hrefused
  have hseven : SpellsNumber (bareText ['+', '0', '0', '7']) 7 :=
    .quoted (spells_encode (by decide)) ⟨['0', '0', '7'], .inr rfl, by decide, by simp, rfl⟩
  rw [hdecode, hdecode]
  exact ⟨(hexact _ 7 hseven.isValue).mpr hseven, hrefused _ isValue_minusZero not_spellsNumber_minusZero⟩

end HeadEvent

namespace Fork

/-- A string that stands for no text, and in it what looks like the end of a version and the begin of another one. -/
def tornVersion : List UInt8 :=
  stringText (0x5c :: 0x75 :: 0x64 :: 0x63 :: 0x30 :: 0x30 :: Utf8.encode "],[0,0,0,0,".toList)

/-- A fork with something for its epoch. Its previous version goes on behind the last byte, with a string that stands
for no text. -/
def tornWith (epoch : List UInt8) : List UInt8 :=
  listText [] ([.bare (listText [] (digitItems [0x30, 0x30, 0x30, 0x30] ++ [.bare tornVersion])),
    .bare (listText [] (digitItems [0x31, 0x31, 0x31, 0x31]))] ++ (Item.bare []).withValue epoch :: [])

theorem blanks_lineFeed : Blanks [0x0a] := by decide

/-- A fork whose current version ends in a line feed. -/
def behindTorn : List UInt8 :=
  listText [] [.bare (listText [] (digitItems [0x32, 0x32, 0x32, 0x32])),
    .bare (listText [] (digitItems [0x33, 0x33, 0x33] ++ [⟨[], [0x33], [0x0a], blanks_nil, blanks_lineFeed⟩])),
    .bare [0x37]]

/-- Two forks in an envelope, with something for the epoch of the first one. -/
def wrappedTorn (epoch : List UInt8) : List UInt8 :=
  recordText [] ([] ++ (Member.bare "data" [] HeadEvent.unescaped_data).withValue
    (listText [] ([] ++ (Item.bare []).withValue (tornWith epoch) :: [.bare behindTorn])) :: [])

/-- The fork that is put together from the two. -/
def pieced : Fork := ⟨.replicate 4 0, .replicate 4 0, 7⟩

theorem isValue_digits {digits : List UInt8} (h : Digits digits) : IsValue (listText [] (digitItems digits)) :=
  .list blanks_nil fun _ => isValue_of_mem_digitItems h

theorem isValue_behindTorn : IsValue behindTorn := by
  refine .list blanks_nil (List.forall_mem_cons.mpr ⟨isValue_digits (by decide), List.forall_mem_cons.mpr ⟨?_, ?_⟩⟩)
  · refine .list blanks_nil fun _ => ?_
    exact isValue_of_mem_digitItems_append (by decide) (isValue_digit (by decide))
  · exact List.forall_mem_singleton.mpr (isValue_digit (by decide))

theorem numberPlace_tornWith : NumberPlace codec tornWith fun fork => some fork.epoch := by
  refine .listed .fork (.there (.there .here)) (fun values => rfl) blanks_nil ?_ .here
  refine List.forall_mem_cons.mpr ⟨?_, List.forall_mem_singleton.mpr (isValue_digits (by decide))⟩
  refine .list blanks_nil fun _ => ?_
  exact isValue_of_mem_digitItems_append (by decide) (isValue_halfPair (by decide))

theorem numberPlace_wrappedTorn :
    NumberPlace (enveloped (list codec)) wrappedTorn fun forks => forks[0]?.bind (some ·.epoch) := by
  have hdata (values : (Layout.enveloped (list codec)).τ) :
      id ((Layout.enveloped (list codec)).make values) = values.1 := rfl
  have hothers : ∀ m ∈ ([] ++ [] : List Member), IsValue m.item.value := fun _ h => nomatch h
  have hforks : ∀ j ∈ ([] ++ [.bare behindTorn] : List Item), IsValue j.value :=
    List.forall_mem_singleton.mpr isValue_behindTorn
  exact .member (m := .bare "data" [] HeadEvent.unescaped_data) (.envelopedList .fork) .here hdata blanks_nil hothers
    (spells_encode HeadEvent.unescaped_data) (.item blanks_nil hforks numberPlace_tornWith)

end Fork

/-- Behind a string that stands for no text, whatever stands for the epoch may be passed over. The text decodes with a
number and with what is no number, to a fork with another epoch, and is refused with the same number between quotes. -/
theorem torn_version_hides_epoch :
    NumberPlace (enveloped (list Fork.codec)) Fork.wrappedTorn (fun forks => forks[0]?.bind (some ·.epoch)) ∧
      (enveloped (list Fork.codec)).decode (Fork.wrappedTorn [0x31]) = .ok [Fork.pieced] ∧
      (enveloped (list Fork.codec)).decode (Fork.wrappedTorn [0x2d, 0x30]) = .ok [Fork.pieced] ∧
      (¬∀ v n, IsValue v →
        ((∃ forks, (enveloped (list Fork.codec)).decode (Fork.wrappedTorn v) = .ok forks ∧
          (forks[0]?.bind (some ·.epoch)) = some n) ↔ SpellsNumber v n)) ∧
      (¬∀ v, IsValue v → (∀ n, ¬SpellsNumber v n) →
        ∃ e, (enveloped (list Fork.codec)).decode (Fork.wrappedTorn v) = .error e) ∧
      ¬∀ v v' n, SpellsNumber v n → SpellsNumber v' n →
        (enveloped (list Fork.codec)).decode (Fork.wrappedTorn v) =
          (enveloped (list Fork.codec)).decode (Fork.wrappedTorn v') := by
  have hplain : (enveloped (list Fork.codec)).decode (Fork.wrappedTorn [0x31]) = .ok [Fork.pieced] := by decide +kernel
  have hminus : (enveloped (list Fork.codec)).decode (Fork.wrappedTorn [0x2d, 0x30]) = .ok [Fork.pieced] := by
    decide +kernel
  have hquoted : ((enveloped (list Fork.codec)).decode (Fork.wrappedTorn (bareText ['1']))).isOk = false := by
    decide +kernel
  refine ⟨Fork.numberPlace_wrappedTorn, hplain, hminus, fun hexact => ?_, fun hrefused => ?_, fun halike => ?_⟩
  · exact not_spellsNumber_minusZero 7 ((hexact _ 7 isValue_minusZero).mp ⟨_, hminus, rfl⟩)
  · obtain ⟨e, he⟩ := hrefused _ isValue_minusZero not_spellsNumber_minusZero
    cases hminus.symm.trans he
  · have hspells : SpellsNumber (bareText ['1']) 1 :=
      .quoted (spells_encode (by decide)) ⟨['1'], .inl rfl, by decide, by simp, rfl⟩
    have hbare : SpellsNumber [0x31] 1 := .plain (.more (by decide) (by decide)) rfl
    rw [← halike _ _ 1 hbare hspells, hplain] at hquoted
    cases hquoted

end ChainHead
