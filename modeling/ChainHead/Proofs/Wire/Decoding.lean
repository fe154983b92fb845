import ChainHead.Proofs.Wire.Members

/-! Decoding a record whose text is an object. It succeeds where all fields hold, and the record is made of the values
of the fields. So neither the order of the members matters, nor the unknown ones among them, as long as their keys stand
for texts; a known member that is given twice is refused, and so is anything but blanks behind the object. -/

namespace ChainHead

open Json Reader

/-- The text of an object, with something before it and behind it. -/
def Json.Object.within (o : Object) (before behind : List UInt8) : List UInt8 := before ++ (o.text ++ behind)

namespace Wire

variable {α τ : Type}

namespace Fields

/-- The members with names of fields. -/
def known (fs : Fields τ) (named : List (String × List UInt8)) : List (String × List UInt8) :=
  named.filter fun n => n.1 ∈ fs.names

section

variable {fs : Fields τ} {levels : Nat} {named named' : List (String × List UInt8)} {members : List Member}
  {key : String}

theorem valuesOf_known (hkey : key ∈ fs.names) (named : List (String × List UInt8)) :
    valuesOf key (fs.known named) = valuesOf key named := by
  have hfilter (n : String × List UInt8) : (decide (n.1 = key) && decide (n.1 ∈ fs.names)) = decide (n.1 = key) := by
    by_cases h : n.1 = key
    · simp [h, hkey]
    · simp [h]
  simp only [valuesOf, known, List.filter_filter, hfilter]

theorem valuesOf_perm (h : (fs.known named).Perm (fs.known named')) (hkey : key ∈ fs.names) :
    (valuesOf key named).Perm (valuesOf key named') := by
  rw [← valuesOf_known hkey named, ← valuesOf_known hkey named']
  exact (h.filter _).map Prod.snd

theorem fieldHolds_perm {codec : Codec α} {absence : Absence α} {given given' : List (List UInt8)} {a : α}
    (h : given.Perm given') (hholds : FieldHolds codec absence levels given a) :
    FieldHolds codec absence levels given' a := by
  match given with
  | [] =>
      rw [List.nil_perm.mp h]
      exact hholds
  | [v] =>
      rw [← List.singleton_perm.mp h]
      exact hholds
  | _ :: _ :: _ => exact hholds.elim

/-- Whether the fields hold is a matter of the values that are given for each of them, in any order. -/
theorem holds_of_perm (h : ∀ key ∈ fs.names, (valuesOf key named).Perm (valuesOf key named')) {values : τ}
    (hholds : fs.Holds levels named values) : fs.Holds levels named' values := by
  induction fs with
  | nil => trivial
  | cons name codec absence others ih =>
      obtain ⟨a, values⟩ := values
      exact ⟨fieldHolds_perm (h name List.mem_cons_self) hholds.1,
        ih (fun key hkey => h key (List.mem_cons_of_mem name hkey)) hholds.2⟩

theorem length_le_one_of_holds {values : τ} (hholds : fs.Holds levels named values) (hkey : key ∈ fs.names) :
    (valuesOf key named).length ≤ 1 := by
  induction fs with
  | nil => cases hkey
  | cons name codec absence others ih =>
      obtain ⟨a, values⟩ := values
      obtain ⟨hfirst, hrest⟩ := hholds
      rcases List.mem_cons.mp hkey with rfl | hkey
      · generalize valuesOf key named = given at hfirst ⊢
        match given with
        | [] => exact Nat.zero_le 1
        | [v] => exact Nat.le_refl 1
        | _ :: _ :: _ => exact hfirst.elim
      · exact ih hrest hkey

theorem exists_named_of_sublist {part : List Member} (hpart : part.Sublist members) (hnamed : Named members named) :
    ∃ names, Named part names ∧ names.Sublist named := by
  induction hpart generalizing named with
  | slnil =>
      cases hnamed
      exact ⟨[], .nil, .slnil⟩
  | cons m hpart ih =>
      cases hnamed with
      | cons hm hnamed =>
          obtain ⟨names, hnames, hsub⟩ := ih hnamed
          exact ⟨names, hnames, hsub.cons _⟩
  | cons_cons m hpart ih =>
      cases hnamed with
      | cons hm hnamed =>
          obtain ⟨names, hnames, hsub⟩ := ih hnamed
          exact ⟨_ :: names, .cons hm hnames, hsub.cons_cons _⟩

/-- Two members with one key give two values. -/
theorem two_le_length_valuesOf {m m' : Member} (hsub : [m, m'].Sublist members) (hm : Spells m.key key.toList)
    (hm' : Spells m'.key key.toList) (hnamed : Named members named) : 2 ≤ (valuesOf key named).length := by
  obtain ⟨names, hnames, hsub⟩ := exists_named_of_sublist hsub hnamed
  cases hnames with
  | @cons _ n _ _ hfirst hnames =>
      cases hnames with
      | @cons _ n' _ _ hsecond hnames =>
          cases hnames
          have hkey : n.1 = key := eq_of_spells hfirst.1 hm
          have hkey' : n'.1 = key := eq_of_spells hsecond.1 hm'
          have hvalues := (hsub.filter fun n => n.1 = key).length_le
          simp only [List.filter_cons, hkey, hkey', decide_true, if_true, List.filter_nil, List.length_cons,
            List.length_nil] at hvalues
          simpa [valuesOf] using hvalues

/-- The values of the known members are settled, if they are among those of other members for which this is so. -/
theorem SettlesMembers.of_perm {others : List Member} (h : fs.SettlesMembers levels members)
    (hnamed : Named members named) (hothers : Named others named')
    (hperm : (fs.known named).Perm (fs.known named')) : fs.SettlesMembers levels others := by
  intro β key codec place hfield m hm hkey
  have hname := mem_names_of_has hfield
  obtain ⟨names, hnames, hsub⟩ := exists_named_of_sublist (List.singleton_sublist.mpr hm) hothers
  cases hnames with
  | @cons _ n _ _ hn hnames =>
      cases hnames
      obtain rfl := eq_of_spells hn.1 hkey
      have hvalue : m.item.value ∈ valuesOf n.1 named' := by
        rw [hn.2]
        exact List.mem_map_of_mem
          (List.mem_filter.mpr ⟨List.singleton_sublist.mp hsub, decide_eq_true rfl⟩)
      obtain ⟨m', hm', hkey', hv⟩ := exists_member_of_mem_valuesOf hnamed
        ((valuesOf_perm hperm hname).mem_iff.mpr hvalue)
      exact hv ▸ h hfield m' hm' hkey'

end

end Fields

section

variable {name : String} {fs : Fields τ} {make : τ → α} {parts : α → τ} {levels : Nat} {o o' : Object}
  {before behind before' behind' : List UInt8} {named named' : List (String × List UInt8)}

theorem decodeAt_within_iff_of_settles (hnames : fs.names.Nodup) (hfields : fs.Settle)
    (hsettles : fs.SettlesMembers levels o.members) (hbefore : Blanks before) (hbehind : Blanks behind) {a : α} :
    (record name fs make parts).decodeAt (levels + 1) (o.within before behind) = .ok a ↔
      ∃ named values, Fields.Named o.members named ∧ fs.Holds levels named values ∧ make values = a := by
  have hskips : SkipsBlanks ((record name fs make parts).read (levels + 1)) := skipsBlanks_recordRead _
  have hdecode {named values} (hnamed : Fields.Named o.members named) (hholds : fs.Holds levels named values) :
      (record name fs make parts).decodeAt (levels + 1) (o.within before behind) = .ok (make values) :=
    decodeAt_of_takesItem hskips
      (takes_of_holds hnames hfields hnamed o.isValue_members hsettles o.blanks_gap hholds).item hbefore hbehind
  constructor
  · intro h
    rcases holds_or_refuses hnames hfields o.isValue_members hsettles o.blanks_gap with
      ⟨named, values, hnamed, hholds⟩ | hrefuses
    · cases (hdecode hnamed hholds).symm.trans h
      exact ⟨named, values, hnamed, hholds, rfl⟩
    · obtain ⟨e, he⟩ := decodeAt_of_refusesItem hskips hrefuses.item hbefore hbehind
      cases he.symm.trans h
  · rintro ⟨named, values, hnamed, hholds, rfl⟩
    exact hdecode hnamed hholds

theorem decodeAt_within_iff (hnames : fs.names.Nodup) (hfields : fs.Settle)
    (hsound : ¬Torn (record name fs make parts) o.text) (hbefore : Blanks before) (hbehind : Blanks behind) {a : α} :
    (record name fs make parts).decodeAt (levels + 1) (o.within before behind) = .ok a ↔
      ∃ named values, Fields.Named o.members named ∧ fs.Holds levels named values ∧ make values = a :=
  decodeAt_within_iff_of_settles hnames hfields (settlesMembers_of_not_torn hfields o.isValue_members hsound levels)
    hbefore hbehind

theorem named_unique {members : List Member} (h : Fields.Named members named) (h' : Fields.Named members named') :
    named = named' := by
  induction h generalizing named' with
  | nil =>
      cases h'
      rfl
  | @cons m n members named hn hnamed ih =>
      cases h' with
      | @cons _ n' _ named' hn' hnamed' =>
          obtain ⟨key, v⟩ := n
          obtain ⟨key', v'⟩ := n'
          obtain rfl := Fields.eq_of_spells hn.1 hn'.1
          obtain rfl : v = v' := hn.2.symm.trans hn'.2
          rw [ih hnamed']

/-- Objects with the same known members, in any order, decode alike. -/
theorem decodeAt_within_congr (hnames : fs.names.Nodup) (hfields : fs.Settle)
    (hsound : ¬Torn (record name fs make parts) o.text) (hbefore : Blanks before) (hbehind : Blanks behind)
    (hbefore' : Blanks before') (hbehind' : Blanks behind') (hnamed : Fields.Named o.members named)
    (hnamed' : Fields.Named o'.members named') (hperm : (fs.known named).Perm (fs.known named')) (a : α) :
    (record name fs make parts).decodeAt (levels + 1) (o.within before behind) = .ok a ↔
      (record name fs make parts).decodeAt (levels + 1) (o'.within before' behind') = .ok a := by
  have hsettles := settlesMembers_of_not_torn hfields o.isValue_members hsound levels
  rw [decodeAt_within_iff_of_settles hnames hfields hsettles hbefore hbehind,
    decodeAt_within_iff_of_settles hnames hfields (hsettles.of_perm hnamed hnamed' hperm) hbefore' hbehind']
  constructor
  · rintro ⟨named₁, values, hnamed₁, hholds, rfl⟩
    obtain rfl := named_unique hnamed hnamed₁
    exact ⟨named', values, hnamed', Fields.holds_of_perm (fun key => Fields.valuesOf_perm hperm) hholds, rfl⟩
  · rintro ⟨named₁, values, hnamed₁, hholds, rfl⟩
    obtain rfl := named_unique hnamed' hnamed₁
    exact ⟨named, values, hnamed, Fields.holds_of_perm (fun key => Fields.valuesOf_perm hperm.symm) hholds, rfl⟩

theorem decodeAt_within_repeated (hnames : fs.names.Nodup) (hfields : fs.Settle)
    (hsound : ¬Torn (record name fs make parts) o.text) (hbefore : Blanks before) (hbehind : Blanks behind)
    {key : String} (hkey : key ∈ fs.names) {m m' : Member} (hsub : [m, m'].Sublist o.members)
    (hm : Spells m.key key.toList) (hm' : Spells m'.key key.toList) :
    ∃ e, (record name fs make parts).decodeAt (levels + 1) (o.within before behind) = .error e := by
  cases hdecode : (record name fs make parts).decodeAt (levels + 1) (o.within before behind) with
  | error e => exact ⟨e, rfl⟩
  | ok a =>
      obtain ⟨named, values, hnamed, hholds, -⟩ :=
        (decodeAt_within_iff hnames hfields hsound hbefore hbehind).mp hdecode
      have htwo := Fields.two_le_length_valuesOf hsub hm hm' hnamed
      have hone := Fields.length_le_one_of_holds hholds hkey
      omega

end

theorem run_map {β : Type} (r : Nat → Reader α) (g : α → β) (bytes : List UInt8) :
    run (fun levels => g <$> r levels) bytes = g <$> run r bytes := by
  have hwhole : whole (fun levels => g <$> r levels) = whole r >>= fun a => pure (g a) := by
    simp only [whole, map_eq_pure_bind, bind_assoc, pure_bind]
    congr 1
    funext a
    congr 1
    funext first
    cases first <;> rfl
  rw [run, run, hwhole, bind_apply]
  cases whole r (.start bytes) <;> rfl

/-- The word for nothing. -/
def nullText : List UInt8 := [0x6e, 0x75, 0x6c, 0x6c]

/-- What is no word for nothing is read as if it could not be missing. -/
theorem optionalRead_apply {c : Codec α} {levels : Nat} {v : List UInt8} (hv : IsValue v) (hne : v ≠ nullText)
    (rest : List UInt8) (p : Position) :
    (optional c).read levels ⟨v ++ rest, p⟩ = (some <$> c.read levels) ⟨v ++ rest, p⟩ := by
  obtain ⟨b, more, rfl, hb⟩ := hv.exists_cons
  refine ahead_bind_congr (isBlank_of_isOpening hb) ?_ (more ++ rest) p
  split
  · rename_i heq
    cases heq
    exact absurd (congrArg (0x6e :: ·) (eq_null_of_isValue hv)) hne
  · rfl

theorem goesOn_optionalRead {c : Codec α} {levels : Nat} {v : List UInt8} (hv : IsValue v) (hne : v ≠ nullText) :
    GoesOn ((optional c).read levels) v (some <$> c.read levels) v :=
  fun rest p => ⟨p, optionalRead_apply hv hne rest p⟩

/-- A value that may be missing is the word for nothing, or decodes. -/
theorem decodeAt_optional (c : Codec α) (levels : Nat) {v : List UInt8} (hv : IsValue v) :
    (optional c).decodeAt levels v =
      if v = nullText then .ok none else some <$> c.decodeAt levels v := by
  split_ifs with hnull
  · subst hnull
    rfl
  · have hread (p : Position) : (optional c).read levels ⟨v, p⟩ = (some <$> c.read levels) ⟨v, p⟩ := by
      have happly : (optional c).read levels ⟨v ++ [], p⟩ = _ := optionalRead_apply hv hnull [] p
      rwa [List.append_nil] at happly
    rw [Codec.decodeAt, Codec.decodeAt, ← run_map, run, run, whole, whole, bind_apply, bind_apply, Cursor.start, hread]

/-! ### Fields that are required, and fields that may be missing -/

namespace Fields

/-- Every field is required, or may be missing, and then its codec takes the word for nothing as well. -/
inductive Plain : {τ : Type} → Fields τ → Prop
  | nil : Plain .nil
  | required {α β : Type} {name : String} {codec : Codec α} {others : Fields β} (h : Plain others) :
      Plain (required name codec others)
  | missable {α β : Type} {name : String} {codec : Codec α} {absence : Absence (Option α)} {others : Fields β}
      (habsence : absence.byName? = some none) (h : Plain others) :
      Plain (.cons name (optional codec) absence others)

/-- What the fields of a record are, given its members. A required field occurs once, with a value that decodes; a field
that may be missing is absent, or null, or occurs once with a value that decodes. -/
inductive Provided (levels : Nat) (named : List (String × List UInt8)) : {τ : Type} → Fields τ → τ → Prop
  | nil : Provided levels named .nil ()
  | required {α β : Type} {name : String} {codec : Codec α} {others : Fields β} {v : List UInt8} {a : α} {rest : β}
      (hv : valuesOf name named = [v]) (ha : codec.decodeAt levels v = .ok a) (h : Provided levels named others rest) :
      Provided levels named (required name codec others) (a, rest)
  | absent {α β : Type} {name : String} {codec : Codec α} {absence : Absence (Option α)} {others : Fields β} {rest : β}
      (hnone : valuesOf name named = []) (habsence : absence.byName? = some none)
      (h : Provided levels named others rest) :
      Provided levels named (.cons name (optional codec) absence others) (none, rest)
  | null {α β : Type} {name : String} {codec : Codec α} {absence : Absence (Option α)} {others : Fields β} {rest : β}
      (hnull : valuesOf name named = [nullText]) (h : Provided levels named others rest) :
      Provided levels named (.cons name (optional codec) absence others) (none, rest)
  | present {α β : Type} {name : String} {codec : Codec α} {absence : Absence (Option α)} {others : Fields β}
      {v : List UInt8} {a : α} {rest : β} (hv : valuesOf name named = [v]) (hne : v ≠ nullText)
      (ha : codec.decodeAt levels v = .ok a) (h : Provided levels named others rest) :
      Provided levels named (.cons name (optional codec) absence others) (some a, rest)

variable {fs : Fields τ} {levels : Nat} {named : List (String × List UInt8)} {values : τ}

theorem holds_of_provided (hvalue : ∀ name, ∀ v ∈ valuesOf name named, IsValue v)
    (h : fs.Provided levels named values) : fs.Holds levels named values := by
  induction h with
  | nil => trivial
  | required hv ha h ih => exact ⟨by rwa [hv], ih⟩
  | absent hnone habsence h ih => exact ⟨by rwa [hnone], ih⟩
  | null hnull h ih => exact ⟨by rw [hnull]; rfl, ih⟩
  | @present α β name codec absence others v a rest hv hne ha h ih =>
      refine ⟨?_, ih⟩
      have hisValue : IsValue v := hvalue name v (hv ▸ List.mem_singleton_self v)
      rw [hv]
      change (optional codec).decodeAt levels v = .ok (some a)
      rw [decodeAt_optional codec levels hisValue, if_neg hne, ha]
      rfl

theorem provided_of_holds (hplain : fs.Plain) (hvalue : ∀ name, ∀ v ∈ valuesOf name named, IsValue v)
    (h : fs.Holds levels named values) : fs.Provided levels named values := by
  induction hplain with
  | nil => exact .nil
  | @required α β name codec others _ ih =>
      obtain ⟨a, rest⟩ := values
      obtain ⟨hfield, hothers⟩ := h
      cases hgiven : valuesOf name named with
      | nil =>
          rw [hgiven] at hfield
          cases hfield
      | cons v more =>
          rw [hgiven] at hfield
          cases more with
          | nil => exact .required hgiven hfield (ih hothers)
          | cons w more => exact hfield.elim
  | @missable α β name codec absence others habsence _ ih =>
      obtain ⟨a, rest⟩ := values
      obtain ⟨hfield, hothers⟩ := h
      cases hgiven : valuesOf name named with
      | nil =>
          rw [hgiven] at hfield
          obtain rfl : none = a := Option.some.inj (habsence.symm.trans hfield)
          exact .absent hgiven habsence (ih hothers)
      | cons v more =>
          rw [hgiven] at hfield
          cases more with
          | cons w more => exact hfield.elim
          | nil =>
              have hisValue : IsValue v := hvalue name v (hgiven ▸ List.mem_singleton_self v)
              change (optional codec).decodeAt levels v = .ok a at hfield
              rw [decodeAt_optional codec levels hisValue] at hfield
              split_ifs at hfield with hnull
              · cases hfield
                exact .null (hgiven.trans (congrArg ([·]) hnull)) (ih hothers)
              · cases hdecode : codec.decodeAt levels v with
                | error e =>
                    rw [hdecode] at hfield
                    cases hfield
                | ok b =>
                    rw [hdecode] at hfield
                    cases hfield
                    exact .present hgiven hnull hdecode (ih hothers)

/-- For fields of these two kinds, this is what it means that they hold. -/
theorem provided_iff_holds (hplain : fs.Plain) {members : List Member} (hmembers : ∀ m ∈ members, IsValue m.item.value)
    (hnamed : Named members named) : fs.Provided levels named values ↔ fs.Holds levels named values := by
  have hvalue (name : String) (v : List UInt8) (hv : v ∈ valuesOf name named) : IsValue v := by
    obtain ⟨m, hm, -, rfl⟩ := exists_member_of_mem_valuesOf hnamed hv
    exact hmembers m hm
  exact ⟨holds_of_provided hvalue, provided_of_holds hplain hvalue⟩

end Fields

end Wire

end ChainHead
