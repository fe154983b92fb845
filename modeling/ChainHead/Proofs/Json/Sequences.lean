import ChainHead.Proofs.Json.Strings

/-! Lists and records are read entry by entry. A course is a sequence of entries that the rounds of a loop take, one
after the other; it leads from state to state and does not depend on the blanks between them. The loop answers behind a
course that ends with the list or record, and refuses it where an entry behind a course is refused. -/

namespace ChainHead.Json.Reader

variable {α β σ : Type}

/-! ### Courses of entries -/

section

variable (step : σ → Reader (σ ⊕ β)) (behindValue : σ → Bool)

/-- A round takes the text of an entry, with a comma before it if the state is behind a value. -/
def TakesEntry (s : σ) (text : List UInt8) (s' : σ) : Prop :=
  ∀ pre rest p, Blanks pre → endsItem rest = true →
    ∃ q, step s ⟨pre ++ ((if behindValue s then [0x2c] else []) ++ (text ++ rest)), p⟩ = .done (.inl s') ⟨rest, q⟩

def RefusesEntry (s : σ) (text : List UInt8) : Prop :=
  ∀ pre rest p, Blanks pre → endsItem rest = true →
    ∃ e c, step s ⟨pre ++ ((if behindValue s then [0x2c] else []) ++ (text ++ rest)), p⟩ = .failed e c

inductive Course : σ → List Entry → σ → Prop
  | nil (s : σ) : Course s [] s
  | cons {s s' s'' : σ} {e : Entry} {es : List Entry} (hne : e.body ≠ []) (h : TakesEntry step behindValue s e.body s')
      (hbehind : behindValue s' = true) (more : Course s' es s'') : Course s (e :: es) s''

end

section

variable {step : σ → Reader (σ ⊕ β)} {behindValue : σ → Bool} {s s' : σ} {front back : List Entry} {e : Entry}
  {closing : UInt8}

theorem path_of_course (h : Course step behindValue s front s') (back : List Entry)
    (hclosing : closing = 0x5d ∨ closing = 0x7d) {pre : List UInt8} (hpre : Blanks pre) (rest : List UInt8)
    (p : Position) :
    ∃ pre' q, Blanks pre' ∧ Path step s
      ⟨pre ++ (follow (behindValue s) ((front ++ back).map Entry.text) ++ closing :: rest), p⟩ s'
      ⟨pre' ++ (follow (behindValue s') (back.map Entry.text) ++ closing :: rest), q⟩ := by
  induction h generalizing pre p with
  | nil s => exact ⟨pre, p, hpre, .here s _⟩
  | @cons s s' s'' e es hne htakes hbehind more ih =>
      obtain ⟨left, hleft⟩ : ∃ left, follow true ((es ++ back).map Entry.text) ++ closing :: rest = left := ⟨_, rfl⟩
      have hends : endsItem (e.item.behind ++ left) = true :=
        endsItem_blanks_append e.item.blanks_behind (hleft ▸ endsItem_follow_append _ hclosing rest)
      obtain ⟨q, hround⟩ := htakes pre (e.item.behind ++ left) p hpre hends
      obtain ⟨pre', q', hpre', hpath⟩ := ih e.item.blanks_behind q
      rw [hbehind, hleft] at hpath
      rw [List.cons_append, List.map_cons, follow_cons, Entry.text_eq]
      simp only [List.append_assoc, hleft]
      refine ⟨pre', q', hpre', .on hround ?_ hpath⟩
      have := List.length_pos_iff.mpr hne
      simp only [List.length_append]
      omega

theorem loop_done_of_course (h : Course step behindValue s front s') (hclosing : closing = 0x5d ∨ closing = 0x7d)
    {b : β} (hend : ∀ pre rest p, Blanks pre →
      ∃ q, step s' ⟨pre ++ closing :: rest, p⟩ = .done (.inr b) ⟨closing :: rest, q⟩)
    {pre : List UInt8} (hpre : Blanks pre) (rest : List UInt8) (p : Position) :
    ∃ q, loop step s ⟨pre ++ (follow (behindValue s) (front.map Entry.text) ++ closing :: rest), p⟩ =
      .done b ⟨closing :: rest, q⟩ := by
  obtain ⟨pre', q, hpre', hpath⟩ := path_of_course h [] hclosing hpre rest p
  rw [List.append_nil] at hpath
  have hnone : follow (behindValue s') (([] : List Entry).map Entry.text) = [] := by cases behindValue s' <;> rfl
  rw [hnone] at hpath
  obtain ⟨q', hlast⟩ := hend pre' rest q hpre'
  exact ⟨q', loop_done_of_path hpath hlast⟩

theorem loop_failed_of_course (h : Course step behindValue s front s') (hclosing : closing = 0x5d ∨ closing = 0x7d)
    (hrefuses : RefusesEntry step behindValue s' e.body) (back : List Entry) {pre : List UInt8} (hpre : Blanks pre)
    (rest : List UInt8) (p : Position) :
    ∃ f c, loop step s ⟨pre ++ (follow (behindValue s) ((front ++ e :: back).map Entry.text) ++ closing :: rest), p⟩ =
      .failed f c := by
  obtain ⟨pre', q, hpre', hpath⟩ := path_of_course h (e :: back) hclosing hpre rest p
  have hends : endsItem (e.item.behind ++ (follow true (back.map Entry.text) ++ closing :: rest)) = true :=
    endsItem_blanks_append e.item.blanks_behind (endsItem_follow_append _ hclosing rest)
  obtain ⟨f, c, hlast⟩ := hrefuses pre' _ q hpre' hends
  refine ⟨f, c, loop_failed_of_path hpath ?_⟩
  rw [← hlast, List.map_cons, follow_cons, Entry.text_eq]
  simp only [List.append_assoc]

end

/-! ### The inside of a list or record, and its end -/

section

variable {r : Reader α} {close : Reader Unit} {a : α} {c c' : Cursor}

theorem attempt_failed {e : Failure} (h : r c = .failed e c') : attempt r c = .done (.error e) c' := by
  rw [attempt, h]

theorem enclosed_failed {e : Failure} (h : r c = .failed e c') : ∃ c'', enclosed r close c = .failed e c'' := by
  have hclose : ∃ answer c'', attempt close c' = .done answer c'' := by
    rw [attempt]
    cases close c' with
    | done a c'' => exact ⟨_, _, rfl⟩
    | failed e c'' => exact ⟨_, _, rfl⟩
  obtain ⟨answer, c'', hclose⟩ := hclose
  have hdiscard : (discard (attempt close) : Reader Unit) c' = .done () c'' := bind_done hclose
  exact ⟨c'', (bind_done (attempt_failed h)).trans (bind_done hdiscard)⟩

theorem enclosed_not_closed {e : Failure} {c'' : Cursor} (h : r c = .done a c') (hclose : close c' = .failed e c'') :
    enclosed r close c = .failed e c'' := by
  have hattempt : attempt r c = .done (.ok a) c' := by rw [attempt, h]
  exact (bind_done hattempt).trans (bind_failed hclose)

end

theorem endList_blanks {pre : List UInt8} (hpre : Blanks pre) (rest : List UInt8) (p : Position) :
    ∃ q, endList ⟨pre ++ 0x5d :: rest, p⟩ = .done () ⟨rest, q⟩ := by
  have hclose : Takes endList (pre ++ [0x5d]) () :=
    .of_goesOn ((skipsBlanks_ahead _).goesOn hpre) (Reads.ahead_bind rfl (Reads.eat 0x5d)).takes
  simpa using hclose rest p

theorem endRecord_blanks {pre : List UInt8} (hpre : Blanks pre) (rest : List UInt8) (p : Position) :
    ∃ q, endRecord ⟨pre ++ 0x7d :: rest, p⟩ = .done () ⟨rest, q⟩ := by
  have hclose : Takes endRecord (pre ++ [0x7d]) () :=
    .of_goesOn ((skipsBlanks_ahead _).goesOn hpre) (Reads.ahead_bind rfl (Reads.eat 0x7d)).takes
  simpa using hclose rest p

/-! ### Lists -/

/-- What follows the comma before an item. -/
def itemBehindComma : Reader Bool := do
  match ← ahead with
  | some 0x5d => refuseNext .trailingComma
  | some _ => pure true
  | none => refuseNext .endInValue

theorem skipsBlanks_nextItem (first : Bool) : SkipsBlanks (nextItem first) := skipsBlanks_ahead _

theorem nextItem_comma (rest : List UInt8) (p : Position) :
    nextItem false ⟨0x2c :: rest, p⟩ = itemBehindComma ⟨rest, p.after 0x2c⟩ := rfl

/-- Before an item, the blanks and the comma that part it from the one in front are read. -/
theorem nextItem_item (first : Bool) {i : Item} (hvalue : IsValue i.value) {pre : List UInt8} (hpre : Blanks pre)
    (rest : List UInt8) (p : Position) :
    ∃ q, nextItem first ⟨pre ++ ((if first then [] else [0x2c]) ++ (i.before ++ (i.value ++ rest))), p⟩ =
      .done true ⟨i.value ++ rest, q⟩ := by
  obtain ⟨b, more, hfirst, hb⟩ := hvalue.exists_cons
  simp only [isOpening, Bool.and_eq_true, Bool.not_eq_true', bne_iff_ne, ne_eq] at hb
  obtain ⟨⟨⟨⟨hblank, -⟩, hend⟩, -⟩, -⟩ := hb
  rw [skipsBlanks_nextItem first pre _ p hpre, hfirst]
  cases first with
  | true =>
      refine ⟨(p.behind pre).behind i.before, (skipsBlanks_ahead _ i.before _ _ i.blanks_before).trans ?_⟩
      refine (ahead_bind_apply hblank _ (more ++ rest) _).trans ?_
      dsimp only
      rw [if_neg hend, if_pos rfl]
      rfl
  | false =>
      refine ⟨((p.behind pre).after 0x2c).behind i.before, (nextItem_comma _ _).trans ?_⟩
      refine (skipsBlanks_ahead _ i.before _ _ i.blanks_before).trans ?_
      refine (ahead_bind_apply hblank _ (more ++ rest) _).trans ?_
      simp only
      rfl

theorem nextItem_blanks_end (first : Bool) {pre : List UInt8} (hpre : Blanks pre) (rest : List UInt8) (p : Position) :
    ∃ q, nextItem first ⟨pre ++ 0x5d :: rest, p⟩ = .done false ⟨0x5d :: rest, q⟩ := by
  rw [skipsBlanks_nextItem first pre _ p hpre]
  cases first <;> exact ⟨_, rfl⟩

/-- Every item of a list is taken as a value. -/
def TakesItems (r : Reader α) (items : List Item) (values : List α) : Prop :=
  List.Forall₂ (fun i a => TakesItem r i.value a) items values

/-- All items are taken, or there is a first one that is refused. -/
theorem exists_takesItems_or {r : Reader α} {items : List Item} (h : ∀ i ∈ items, SettlesItem r i.value) :
    (∃ values, TakesItems r items values) ∨
      ∃ front i back values, items = front ++ i :: back ∧ TakesItems r front values ∧ RefusesItem r i.value := by
  induction items with
  | nil => exact .inl ⟨[], .nil⟩
  | cons i items ih =>
      obtain ⟨hi, hitems⟩ := List.forall_mem_cons.mp h
      rcases hi with ⟨a, ha⟩ | hrefuses
      · rcases ih hitems with ⟨values, hvalues⟩ | ⟨front, j, back, values, rfl, hvalues, hj⟩
        · exact .inl ⟨a :: values, .cons ha hvalues⟩
        · exact .inr ⟨i :: front, j, back, a :: values, rfl, .cons ha hvalues, hj⟩
      · exact .inr ⟨[], i, items, [], rfl, .nil, hrefuses⟩

section

variable {r : Reader α} {items : List Item} {values : List α} {gap : List UInt8}

theorem itemStep_item (seen : List α) {i : Item} (hvalue : IsValue i.value) {pre : List UInt8} (hpre : Blanks pre)
    (rest : List UInt8) (p : Position) :
    ∃ q, itemStep r seen
        ⟨pre ++ ((if !seen.isEmpty then [0x2c] else []) ++ ((Entry.ofItem i).body ++ rest)), p⟩ =
      (r >>= fun a => pure (.inl (a :: seen))) ⟨i.value ++ rest, q⟩ := by
  obtain ⟨q, hnext⟩ := nextItem_item seen.isEmpty hvalue hpre rest p
  refine ⟨q, ?_⟩
  have hcomma : (if !seen.isEmpty then [0x2c] else [] : List UInt8) = if seen.isEmpty then [] else [0x2c] := by
    cases seen.isEmpty <;> rfl
  have hbody : (Entry.ofItem i).body ++ rest = i.before ++ (i.value ++ rest) := by
    simp [Entry.body, Entry.ofItem]
  rw [hcomma, hbody, itemStep, bind_done hnext]
  rfl

theorem course_items (hvalue : ∀ i ∈ items, IsValue i.value) (h : TakesItems r items values) (seen : List α) :
    Course (itemStep r) (fun seen => !seen.isEmpty) seen (items.map Entry.ofItem) (values.reverse ++ seen) := by
  induction h generalizing seen with
  | nil => exact .nil seen
  | @cons i a items values ha hitems ih =>
      obtain ⟨hi, hvalue⟩ := List.forall_mem_cons.mp hvalue
      obtain ⟨b, more, hfirst, -⟩ := hi.exists_cons
      have hne : (Entry.ofItem i).body ≠ [] := by simp [Entry.body, Entry.ofItem, hfirst]
      have htakes : TakesEntry (itemStep r) (fun seen => !seen.isEmpty) seen (Entry.ofItem i).body (a :: seen) := by
        intro pre rest p hpre hrest
        obtain ⟨q, hround⟩ := itemStep_item (r := r) seen hi hpre rest p
        obtain ⟨q', ha⟩ := ha rest q hrest
        exact ⟨q', hround.trans (bind_done ha)⟩
      have hmore := ih hvalue (a :: seen)
      rw [List.reverse_cons, List.append_assoc]
      exact .cons hne htakes rfl hmore

/-- The inside and the end of a list are taken as its items. -/
theorem takes_items (hvalue : ∀ i ∈ items, IsValue i.value) (h : TakesItems r items values) (hgap : Blanks gap) :
    Takes (enclosed (Reader.items r) endList) (gap ++ (joined (items.map Item.text) ++ [0x5d])) values := by
  intro rest p
  have hcourse := course_items hvalue h []
  have hend (pre rest : List UInt8) (p : Position) (hpre : Blanks pre) :
      ∃ q, itemStep r (values.reverse ++ []) ⟨pre ++ 0x5d :: rest, p⟩ = .done (.inr values) ⟨0x5d :: rest, q⟩ := by
    obtain ⟨q, hnext⟩ := nextItem_blanks_end (values.reverse ++ []).isEmpty hpre rest p
    refine ⟨q, ?_⟩
    rw [itemStep, bind_done hnext]
    simp
  obtain ⟨q, hloop⟩ := loop_done_of_course hcourse (.inl rfl) hend hgap rest p
  obtain ⟨q', hclose⟩ := endList_blanks blanks_nil rest q
  refine ⟨q', ?_⟩
  rw [Entry.map_text_ofItem] at hloop
  simp only [List.append_assoc, List.singleton_append]
  exact enclosed_done hloop hclose

theorem refuses_items (hvalue : ∀ i ∈ items, IsValue i.value) {front back : List Item} {i : Item}
    (hitems : items = front ++ i :: back) (hfront : TakesItems r front values) (hi : RefusesItem r i.value)
    (hgap : Blanks gap) :
    Refuses (enclosed (Reader.items r) endList) (gap ++ (joined (items.map Item.text) ++ [0x5d])) := by
  intro rest p
  subst hitems
  have hcourse := course_items (fun j hj => hvalue j (List.mem_append_left _ hj)) hfront []
  have hrefuses : RefusesEntry (itemStep r) (fun seen => !seen.isEmpty) (values.reverse ++ [])
      (Entry.ofItem i).body := by
    intro pre rest p hpre hrest
    obtain ⟨q, hround⟩ := itemStep_item (r := r) (values.reverse ++ [])
      (hvalue i (List.mem_append_right _ List.mem_cons_self)) hpre rest p
    obtain ⟨e, c, hi⟩ := hi rest q hrest
    exact ⟨e, c, hround.trans (bind_failed hi)⟩
  obtain ⟨e, c, hloop⟩ := loop_failed_of_course hcourse (.inl rfl) hrefuses (back.map Entry.ofItem) hgap rest p
  rw [← List.map_cons, ← List.map_append, Entry.map_text_ofItem] at hloop
  simp only [List.append_assoc, List.singleton_append]
  obtain ⟨c', hfailed⟩ := enclosed_failed hloop
  exact ⟨e, c', hfailed⟩

/-- The inside and the end of a list are taken or refused, if the items are. -/
theorem takes_or_refuses_items (hvalue : ∀ i ∈ items, IsValue i.value) (h : ∀ i ∈ items, SettlesItem r i.value)
    (hgap : Blanks gap) :
    (∃ values, Takes (enclosed (Reader.items r) endList) (gap ++ (joined (items.map Item.text) ++ [0x5d])) values) ∨
      Refuses (enclosed (Reader.items r) endList) (gap ++ (joined (items.map Item.text) ++ [0x5d])) := by
  rcases exists_takesItems_or h with ⟨values, hvalues⟩ | ⟨front, i, back, values, hitems, hfront, hi⟩
  · exact .inl ⟨values, takes_items hvalue hvalues hgap⟩
  · exact .inr (refuses_items hvalue hitems hfront hi hgap)

end

/-! ### Records -/

/-- A round of reading a record: a key, and what is made of the member with it. -/
def keyedStep (entry : String → σ → Reader σ) (state : Bool × σ) : Reader ((Bool × σ) ⊕ σ) := do
  match ← nextKey state.1 with
  | none => pure (.inr state.2)
  | some key => do
    let s ← entry key state.2
    pure (.inl (false, s))

/-- Members that are taken one after the other, from a state to a state. -/
inductive TakesMembers (entry : String → σ → Reader σ) : σ → List Member → σ → Prop
  | nil (s : σ) : TakesMembers entry s [] s
  | cons {s s' s'' : σ} {m : Member} {ms : List Member} {key : String} (hkey : Spells m.key key.toList)
      (h : TakesItem (entry key s) m.tail s') (more : TakesMembers entry s' ms s'') : TakesMembers entry s (m :: ms) s''

/-- A member is refused because of its key, or with it. -/
def RefusesMember (entry : String → σ → Reader σ) (s : σ) (m : Member) : Prop :=
  (∀ text, ¬Spells m.key text) ∨ ∃ key : String, Spells m.key key.toList ∧ RefusesItem (entry key s) m.tail

section

variable {entry : String → σ → Reader σ} {s s' : σ} {members : List Member} {m : Member} {gap : List UInt8}

/-- The key that a reader finds behind its quote. -/
def restOfKey : Reader (Option String) := do
  eat
  some <$> text

/-- What follows the comma before a member. -/
def keyBehindComma : Reader (Option String) := do
  match ← ahead with
  | some 0x22 => restOfKey
  | some 0x7d => refuseNext .trailingComma
  | some _ => refuseNext .keyNotText
  | none => refuseNext .endInValue

theorem skipsBlanks_nextKey (first : Bool) : SkipsBlanks (nextKey first) := skipsBlanks_ahead _

theorem nextKey_comma (rest : List UInt8) (p : Position) :
    nextKey false ⟨0x2c :: rest, p⟩ = keyBehindComma ⟨rest, p.after 0x2c⟩ := rfl

theorem nextKey_member (first : Bool) (m : Member) {pre : List UInt8} (hpre : Blanks pre) (rest : List UInt8)
    (p : Position) :
    ∃ q, nextKey first ⟨pre ++ ((if first then [] else [0x2c]) ++ (m.before ++ (stringText m.key ++ rest))), p⟩ =
      restOfKey ⟨stringText m.key ++ rest, q⟩ := by
  rw [skipsBlanks_nextKey first pre _ p hpre]
  cases first with
  | true =>
      refine ⟨(p.behind pre).behind m.before, (skipsBlanks_ahead _ m.before _ _ m.blanks_before).trans ?_⟩
      exact ahead_bind_apply rfl _ _ _
  | false =>
      refine ⟨((p.behind pre).after 0x2c).behind m.before, (nextKey_comma _ _).trans ?_⟩
      refine (skipsBlanks_ahead _ m.before _ _ m.blanks_before).trans ?_
      exact ahead_bind_apply rfl _ _ _

theorem nextKey_blanks_end (first : Bool) {pre : List UInt8} (hpre : Blanks pre) (rest : List UInt8) (p : Position) :
    ∃ q, nextKey first ⟨pre ++ 0x7d :: rest, p⟩ = .done none ⟨0x7d :: rest, q⟩ := by
  rw [skipsBlanks_nextKey first pre _ p hpre]
  cases first <;> exact ⟨_, rfl⟩

theorem takes_restOfKey {raw : List UInt8} {key : String} (h : Spells raw key.toList) :
    Takes restOfKey (stringText raw) (some key) :=
  .of_goesOn goesOn_eat ((takes_text h).map some)

theorem refuses_restOfKey {raw : List UInt8} (h : IsText raw) (hnone : ∀ text, ¬Spells raw text) :
    Refuses restOfKey (stringText raw) :=
  .of_goesOn goesOn_eat ((refuses_text h hnone).bind _)

theorem keyedStep_member (entry : String → σ → Reader σ) (first : Bool) (s : σ) (m : Member) {key : String}
    (hkey : Spells m.key key.toList) {pre : List UInt8} (hpre : Blanks pre) (rest : List UInt8) (p : Position) :
    ∃ q, keyedStep entry (first, s)
        ⟨pre ++ ((if !first then [0x2c] else []) ++ ((Entry.ofMember m).body ++ rest)), p⟩ =
      (entry key s >>= fun s => pure (.inl (false, s))) ⟨m.tail ++ rest, q⟩ := by
  obtain ⟨q, hnext⟩ := nextKey_member first m hpre (m.tail ++ rest) p
  obtain ⟨q', hrest⟩ := takes_restOfKey hkey (m.tail ++ rest) q
  refine ⟨q', ?_⟩
  have hcomma : (if !first then [0x2c] else [] : List UInt8) = if first then [] else [0x2c] := by cases first <;> rfl
  rw [hcomma, Entry.body_ofMember]
  simp only [List.append_assoc]
  exact bind_done (hnext.trans hrest)

theorem refusesEntry_keyedStep (first : Bool) (h : RefusesMember entry s m) :
    RefusesEntry (keyedStep entry) (fun state => !state.1) (first, s) (Entry.ofMember m).body := by
  intro pre rest p hpre hrest
  rcases h with hnone | ⟨key, hkey, hrefuses⟩
  · obtain ⟨q, hnext⟩ := nextKey_member first m hpre (m.tail ++ rest) p
    obtain ⟨e, c, hfailed⟩ := refuses_restOfKey m.isText_key hnone (m.tail ++ rest) q
    have hcomma : (if !first then [0x2c] else [] : List UInt8) = if first then [] else [0x2c] := by
      cases first <;> rfl
    dsimp only
    rw [hcomma, Entry.body_ofMember]
    simp only [List.append_assoc]
    exact ⟨e, c, bind_failed (hnext.trans hfailed)⟩
  · obtain ⟨q, hround⟩ := keyedStep_member entry first s m hkey hpre rest p
    obtain ⟨e, c, hrefuses⟩ := hrefuses rest q hrest
    exact ⟨e, c, hround.trans (bind_failed hrefuses)⟩

theorem exists_course_members (h : TakesMembers entry s members s') (first : Bool) :
    ∃ first', Course (keyedStep entry) (fun state => !state.1) (first, s) (members.map Entry.ofMember)
      (first', s') := by
  induction h generalizing first with
  | nil s => exact ⟨first, .nil _⟩
  | @cons s s' s'' m ms key hkey htakes more ih =>
      obtain ⟨first', hmore⟩ := ih false
      refine ⟨first', .cons ?_ (fun pre rest p hpre hrest => ?_) rfl hmore⟩
      · simp [Entry.body_ofMember, stringText]
      · obtain ⟨q, hround⟩ := keyedStep_member entry first s m hkey hpre rest p
        obtain ⟨q', htakes⟩ := htakes rest q hrest
        exact ⟨q', hround.trans (bind_done htakes)⟩

/-- All members are taken, or there is a first one that is refused. -/
theorem exists_takesMembers_or
    (h : ∀ m ∈ members, ∀ key s, Spells m.key key.toList → SettlesItem (entry key s) m.tail) (s : σ) :
    (∃ s', TakesMembers entry s members s') ∨
      ∃ front m back s', members = front ++ m :: back ∧ TakesMembers entry s front s' ∧ RefusesMember entry s' m := by
  induction members generalizing s with
  | nil => exact .inl ⟨s, .nil s⟩
  | cons m members ih =>
      obtain ⟨hm, hmembers⟩ := List.forall_mem_cons.mp h
      by_cases hkey : ∃ text, Spells m.key text
      · obtain ⟨text, hkey⟩ := hkey
        rw [← String.toList_ofList (l := text)] at hkey
        rcases hm _ s hkey with ⟨s', htakes⟩ | hrefuses
        · rcases ih hmembers s' with ⟨s'', hmore⟩ | ⟨front, n, back, s'', rfl, hfront, hn⟩
          · exact .inl ⟨s'', .cons hkey htakes hmore⟩
          · exact .inr ⟨m :: front, n, back, s'', rfl, .cons hkey htakes hfront, hn⟩
        · exact .inr ⟨[], m, members, s, rfl, .nil s, .inr ⟨_, hkey, hrefuses⟩⟩
      · exact .inr ⟨[], m, members, s, rfl, .nil s, .inl (not_exists.mp hkey)⟩

/-- The members of a record are taken up to the end of the record. -/
theorem loop_keyedStep_done (h : TakesMembers entry s members s') (hgap : Blanks gap) (rest : List UInt8)
    (p : Position) :
    ∃ q, loop (keyedStep entry) (true, s) ⟨gap ++ (joined (members.map Member.text) ++ 0x7d :: rest), p⟩ =
      .done s' ⟨0x7d :: rest, q⟩ := by
  obtain ⟨first', hcourse⟩ := exists_course_members h true
  have hend (pre rest : List UInt8) (p : Position) (hpre : Blanks pre) :
      ∃ q, keyedStep entry (first', s') ⟨pre ++ 0x7d :: rest, p⟩ = .done (.inr s') ⟨0x7d :: rest, q⟩ := by
    obtain ⟨q, hnext⟩ := nextKey_blanks_end first' hpre rest p
    exact ⟨q, bind_done hnext⟩
  rw [← Entry.map_text_ofMember]
  exact loop_done_of_course hcourse (.inr rfl) hend hgap rest p

theorem loop_keyedStep_failed {front back : List Member} (hmembers : members = front ++ m :: back)
    (hfront : TakesMembers entry s front s') (hm : RefusesMember entry s' m) (hgap : Blanks gap) (rest : List UInt8)
    (p : Position) :
    ∃ e c, loop (keyedStep entry) (true, s) ⟨gap ++ (joined (members.map Member.text) ++ 0x7d :: rest), p⟩ =
      .failed e c := by
  subst hmembers
  obtain ⟨first', hcourse⟩ := exists_course_members hfront true
  rw [← Entry.map_text_ofMember, List.map_append, List.map_cons]
  exact loop_failed_of_course hcourse (.inr rfl) (refusesEntry_keyedStep first' hm) (back.map Entry.ofMember) hgap
    rest p

/-! What is made of the state behind all members is judged last. -/

variable {f : σ → Reader β}

theorem takes_keyed (h : TakesMembers entry s members s') {b : β} (hf : f s' = pure b) (hgap : Blanks gap) :
    Takes (enclosed (loop (keyedStep entry) (true, s) >>= f) endRecord)
      (gap ++ (joined (members.map Member.text) ++ [0x7d])) b := by
  intro rest p
  obtain ⟨q, hloop⟩ := loop_keyedStep_done h hgap rest p
  obtain ⟨q', hclose⟩ := endRecord_blanks blanks_nil rest q
  refine ⟨q', ?_⟩
  simp only [List.append_assoc, List.singleton_append]
  refine enclosed_done ((bind_done hloop).trans ?_) hclose
  rw [hf, pure_apply]
  rfl

theorem refuses_keyed_of_yields (h : TakesMembers entry s members s') (hf : Yields (f s') fun _ => False)
    (hgap : Blanks gap) :
    Refuses (enclosed (loop (keyedStep entry) (true, s) >>= f) endRecord)
      (gap ++ (joined (members.map Member.text) ++ [0x7d])) := by
  intro rest p
  obtain ⟨q, hloop⟩ := loop_keyedStep_done h hgap rest p
  obtain ⟨e, c, hfailed⟩ := refuses_of_yields hf [] (0x7d :: rest) q
  obtain ⟨c', hfailed⟩ := enclosed_failed ((bind_done hloop).trans hfailed)
  simp only [List.append_assoc, List.singleton_append]
  exact ⟨e, c', hfailed⟩

theorem refuses_keyed {front back : List Member} (hmembers : members = front ++ m :: back)
    (hfront : TakesMembers entry s front s') (hm : RefusesMember entry s' m) (f : σ → Reader β) (hgap : Blanks gap) :
    Refuses (enclosed (loop (keyedStep entry) (true, s) >>= f) endRecord)
      (gap ++ (joined (members.map Member.text) ++ [0x7d])) := by
  intro rest p
  obtain ⟨e, c, hloop⟩ := loop_keyedStep_failed hmembers hfront hm hgap rest p
  obtain ⟨c', hfailed⟩ := enclosed_failed (bind_failed hloop)
  simp only [List.append_assoc, List.singleton_append]
  exact ⟨e, c', hfailed⟩

end

end ChainHead.Json.Reader
