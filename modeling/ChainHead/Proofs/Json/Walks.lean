import ChainHead.Proofs.Json.Sequences

/-! Lists that are read item by item, each item by a reader of its own. A reader walks on from one place inside a list
to another; where all items are behind it, the list has to end. -/

namespace ChainHead.Json.Reader

variable {α β : Type}

/-- Where a reader stands inside a list: whether behind a value, and in front of which items. -/
structure Inside where
  behindValue : Bool
  items : List Item

def Inside.text (s : Inside) : List UInt8 := follow s.behindValue (s.items.map Item.text) ++ [0x5d]

/-- A reader goes on inside a list, with a value. -/
def Walks (r : Reader α) (s : Inside) (a : α) (s' : Inside) : Prop :=
  ∀ pre rest p, Blanks pre →
    ∃ pre' q, Blanks pre' ∧ r ⟨pre ++ (s.text ++ rest), p⟩ = .done a ⟨pre' ++ (s'.text ++ rest), q⟩

def Balks (r : Reader α) (s : Inside) : Prop :=
  ∀ pre rest p, Blanks pre → ∃ e c, r ⟨pre ++ (s.text ++ rest), p⟩ = .failed e c

/-- Reads the next item of a list, or what stands for it if there is none. -/
def itemOr (first : Bool) (r absent : Reader α) : Reader α := do
  if ← nextItem first then r else absent

section

variable {r absent : Reader α} {f : α → Reader β} {s s' s'' : Inside} {a : α} {b : β} {i : Item} {items : List Item}
  {first behindValue : Bool} {gap : List UInt8}

theorem walks_pure (a : α) (s : Inside) : Walks (pure a) s a s := fun pre _ p hpre => ⟨pre, p, hpre, rfl⟩

theorem balks_of_yields (h : Yields r fun _ => False) (s : Inside) : Balks r s := by
  intro pre rest p _
  cases hr : r ⟨pre ++ (s.text ++ rest), p⟩ with
  | done a c => exact (h _ _ _ hr).elim
  | failed e c => exact ⟨e, c, rfl⟩

theorem Walks.bind (hr : Walks r s a s') (hf : Walks (f a) s' b s'') : Walks (r >>= f) s b s'' := by
  intro pre rest p hpre
  obtain ⟨pre', q, hpre', hr⟩ := hr pre rest p hpre
  obtain ⟨pre'', q', hpre'', hf⟩ := hf pre' rest q hpre'
  exact ⟨pre'', q', hpre'', (bind_done hr).trans hf⟩

theorem Walks.bind_balks (hr : Walks r s a s') (hf : Balks (f a) s') : Balks (r >>= f) s := by
  intro pre rest p hpre
  obtain ⟨pre', q, hpre', hr⟩ := hr pre rest p hpre
  obtain ⟨e, c, hf⟩ := hf pre' rest q hpre'
  exact ⟨e, c, (bind_done hr).trans hf⟩

theorem Balks.bind (hr : Balks r s) (f : α → Reader β) : Balks (r >>= f) s := by
  intro pre rest p hpre
  obtain ⟨e, c, hr⟩ := hr pre rest p hpre
  exact ⟨e, c, bind_failed hr⟩

theorem Inside.text_cons (behindValue : Bool) (i : Item) (items : List Item) :
    (Inside.mk behindValue (i :: items)).text =
      (if behindValue then [0x2c] else []) ++
        (i.before ++ (i.value ++ (i.behind ++ (Inside.mk true items).text))) := by
  simp only [Inside.text, List.map_cons, follow_cons, Item.text, List.append_assoc]

theorem Inside.text_nil (behindValue : Bool) : (Inside.mk behindValue []).text = [0x5d] := by
  cases behindValue <;> rfl

theorem Inside.endsItem_text (items : List Item) (rest : List UInt8) :
    endsItem ((Inside.mk true items).text ++ rest) = true := by
  rw [Inside.text, List.append_assoc]
  exact endsItem_follow_append _ (.inl rfl) rest

theorem itemOr_item (r absent : Reader α) (items : List Item) (hfirst : first = !behindValue) (hvalue : IsValue i.value)
    {pre : List UInt8} (hpre : Blanks pre) (rest : List UInt8) (p : Position) :
    ∃ q, itemOr first r absent ⟨pre ++ ((Inside.mk behindValue (i :: items)).text ++ rest), p⟩ =
      r ⟨i.value ++ (i.behind ++ ((Inside.mk true items).text ++ rest)), q⟩ := by
  subst hfirst
  obtain ⟨q, hnext⟩ :=
    nextItem_item (!behindValue) hvalue hpre (i.behind ++ ((Inside.mk true items).text ++ rest)) p
  refine ⟨q, ?_⟩
  have hcomma : (if behindValue then [0x2c] else [] : List UInt8) = if !behindValue then [] else [0x2c] := by
    cases behindValue <;> rfl
  rw [Inside.text_cons, hcomma]
  simp only [List.append_assoc]
  exact bind_done hnext

theorem walks_itemOr (hfirst : first = !behindValue) (hvalue : IsValue i.value) (h : TakesItem r i.value a) :
    Walks (itemOr first r absent) ⟨behindValue, i :: items⟩ a ⟨true, items⟩ := by
  intro pre rest p hpre
  obtain ⟨q, hnext⟩ := itemOr_item r absent items hfirst hvalue hpre rest p
  obtain ⟨q', h⟩ := h _ q (endsItem_blanks_append i.blanks_behind (Inside.endsItem_text items rest))
  exact ⟨i.behind, q', i.blanks_behind, hnext.trans h⟩

theorem balks_itemOr (hfirst : first = !behindValue) (hvalue : IsValue i.value) (h : RefusesItem r i.value) :
    Balks (itemOr first r absent) ⟨behindValue, i :: items⟩ := by
  intro pre rest p hpre
  obtain ⟨q, hnext⟩ := itemOr_item r absent items hfirst hvalue hpre rest p
  obtain ⟨e, c, h⟩ := h _ q (endsItem_blanks_append i.blanks_behind (Inside.endsItem_text items rest))
  exact ⟨e, c, hnext.trans h⟩

theorem itemOr_end (r absent : Reader α) (first behindValue : Bool) {pre : List UInt8} (hpre : Blanks pre)
    (rest : List UInt8) (p : Position) :
    ∃ q, itemOr first r absent ⟨pre ++ ((Inside.mk behindValue []).text ++ rest), p⟩ =
      absent ⟨(Inside.mk behindValue []).text ++ rest, q⟩ := by
  rw [Inside.text_nil]
  obtain ⟨q, hnext⟩ := nextItem_blanks_end first hpre rest p
  exact ⟨q, bind_done hnext⟩

theorem walks_itemOr_end (h : Walks absent ⟨behindValue, []⟩ a s') :
    Walks (itemOr first r absent) ⟨behindValue, []⟩ a s' := by
  intro pre rest p hpre
  obtain ⟨q, hnext⟩ := itemOr_end r absent first behindValue hpre rest p
  obtain ⟨pre', q', hpre', h⟩ := h [] rest q fun _ h => nomatch h
  exact ⟨pre', q', hpre', hnext.trans h⟩

theorem balks_itemOr_end (h : Balks absent ⟨behindValue, []⟩) : Balks (itemOr first r absent) ⟨behindValue, []⟩ := by
  intro pre rest p hpre
  obtain ⟨q, hnext⟩ := itemOr_end r absent first behindValue hpre rest p
  obtain ⟨e, c, h⟩ := h [] rest q fun _ h => nomatch h
  exact ⟨e, c, hnext.trans h⟩

/-- A list has to end where its reader is through with it. -/
theorem endList_comma {pre : List UInt8} (hpre : Blanks pre) (rest : List UInt8) (p : Position) :
    ∃ e c, endList ⟨pre ++ 0x2c :: rest, p⟩ = .failed e c := by
  have hcomma : Refuses endList [0x2c] := by
    refine .of_goesOn ((goesOn_ahead rfl).trans goesOn_eat) (refuses_of_yields (.behind fun first => ?_) [])
    split
    · exact .refuseNext _
    · exact .refuseNext _
  obtain ⟨e, c, hfailed⟩ := hcomma rest (p.behind pre)
  exact ⟨e, c, (skipsBlanks_ahead _ pre _ p hpre).trans hfailed⟩

theorem endList_opening {b : UInt8} (hb : isOpening b = true) {pre : List UInt8} (hpre : Blanks pre)
    (rest : List UInt8) (p : Position) : ∃ e c, endList ⟨pre ++ b :: rest, p⟩ = .failed e c := by
  simp only [isOpening, Bool.and_eq_true, Bool.not_eq_true', bne_iff_ne, ne_eq] at hb
  obtain ⟨⟨⟨⟨hblank, hcomma⟩, hend⟩, -⟩, -⟩ := hb
  rw [endList, skipsBlanks_ahead _ pre _ p hpre]
  refine ⟨_, _, (ahead_bind_congr hblank (r := refuseNext .trailingText) ?_ rest (p.behind pre)).trans rfl⟩
  split
  · rename_i heq
    exact absurd (Option.some.inj heq) hend
  · rename_i heq
    exact absurd (Option.some.inj heq) hcomma
  · rfl
  · rename_i heq
    cases heq

theorem endList_items (behindValue : Bool) (hvalue : IsValue i.value) (items : List Item) {pre : List UInt8}
    (hpre : Blanks pre) (rest : List UInt8) (p : Position) :
    ∃ e c, endList ⟨pre ++ ((Inside.mk behindValue (i :: items)).text ++ rest), p⟩ = .failed e c := by
  rw [Inside.text_cons]
  simp only [List.append_assoc]
  cases behindValue with
  | true => exact endList_comma hpre _ p
  | false =>
      obtain ⟨b, more, hfirst, hb⟩ := hvalue.exists_cons
      rw [hfirst]
      have hpre' : Blanks (pre ++ i.before) := by
        intro c hc
        exact (List.mem_append.mp hc).elim (hpre c) (i.blanks_before c)
      have hfailed := endList_opening hb hpre' (more ++ (i.behind ++ ((Inside.mk true items).text ++ rest))) p
      simpa using hfailed

theorem insideText_eq (gap : List UInt8) (items : List Item) (rest : List UInt8) :
    gap ++ (joined (items.map Item.text) ++ [0x5d]) ++ rest = gap ++ ((Inside.mk false items).text ++ rest) := by
  simp [Inside.text, follow]

/-- A reader ends inside a list at a byte where the list can not end. -/
def Strays (r : Reader α) (s : Inside) (a : α) : Prop :=
  ∀ pre rest p, Blanks pre →
    ∃ b more q, isOpening b = true ∧ r ⟨pre ++ (s.text ++ rest), p⟩ = .done a ⟨b :: more, q⟩

/-- What a reader comes to inside a list depends on nothing behind the list. -/
def SettlesInside (r : Reader α) (s : Inside) : Prop :=
  (∃ a s', (∀ i ∈ s'.items, IsValue i.value) ∧ Walks r s a s') ∨ Balks r s ∨ ∃ a, Strays r s a

theorem Walks.attempt (h : Walks r s a s') : Walks (attempt r) s (.ok a) s' := by
  intro pre rest p hpre
  obtain ⟨pre', q, hpre', h⟩ := h pre rest p hpre
  exact ⟨pre', q, hpre', by rw [Reader.attempt, h]⟩

theorem Walks.bind_settles (hr : Walks r s a s') (hf : SettlesInside (f a) s') : SettlesInside (r >>= f) s := by
  rcases hf with ⟨b, s'', hvalue, hwalks⟩ | hbalks | ⟨b, hstrays⟩
  · exact .inl ⟨b, s'', hvalue, hr.bind hwalks⟩
  · exact .inr (.inl (hr.bind_balks hbalks))
  · refine .inr (.inr ⟨b, fun pre rest p hpre => ?_⟩)
    obtain ⟨pre', q, hpre', hr⟩ := hr pre rest p hpre
    obtain ⟨first, more, q', hfirst, hdone⟩ := hstrays pre' rest q hpre'
    exact ⟨first, more, q', hfirst, (bind_done hr).trans hdone⟩

theorem takes_enclosed_of_walks (h : Walks r ⟨false, items⟩ a ⟨behindValue, []⟩) (hgap : Blanks gap) :
    Takes (enclosed r endList) (gap ++ (joined (items.map Item.text) ++ [0x5d])) a := by
  intro rest p
  rw [insideText_eq]
  obtain ⟨pre, q, hpre, h⟩ := h gap rest p hgap
  rw [Inside.text_nil] at h
  obtain ⟨q', hclose⟩ := endList_blanks hpre rest q
  exact ⟨q', enclosed_done h hclose⟩

theorem refuses_enclosed_of_walks {left : List Item} (h : Walks r ⟨false, items⟩ a ⟨behindValue, i :: left⟩)
    (hvalue : IsValue i.value) (hgap : Blanks gap) :
    Refuses (enclosed r endList) (gap ++ (joined (items.map Item.text) ++ [0x5d])) := by
  intro rest p
  rw [insideText_eq]
  obtain ⟨pre, q, hpre, h⟩ := h gap rest p hgap
  obtain ⟨e, c, hclose⟩ := endList_items behindValue hvalue left hpre rest q
  exact ⟨e, c, enclosed_not_closed h hclose⟩

theorem refuses_enclosed_of_balks (h : Balks r ⟨false, items⟩) (hgap : Blanks gap) :
    Refuses (enclosed r endList) (gap ++ (joined (items.map Item.text) ++ [0x5d])) := by
  intro rest p
  rw [insideText_eq]
  obtain ⟨e, c, h⟩ := h gap rest p hgap
  obtain ⟨c', hfailed⟩ := enclosed_failed h
  exact ⟨e, c', hfailed⟩

theorem refuses_enclosed_of_strays (h : Strays r ⟨false, items⟩ a) (hgap : Blanks gap) :
    Refuses (enclosed r endList) (gap ++ (joined (items.map Item.text) ++ [0x5d])) := by
  intro rest p
  rw [insideText_eq]
  obtain ⟨b, more, q, hb, h⟩ := h gap rest p hgap
  obtain ⟨e, c, hclose⟩ := endList_opening hb blanks_nil more q
  exact ⟨e, c, enclosed_not_closed h hclose⟩

/-- The inside of a list and its end are taken or refused. -/
theorem SettlesInside.takes_or_refuses (h : SettlesInside r ⟨false, items⟩) (hgap : Blanks gap) :
    (∃ a, Takes (enclosed r endList) (gap ++ (joined (items.map Item.text) ++ [0x5d])) a) ∨
      Refuses (enclosed r endList) (gap ++ (joined (items.map Item.text) ++ [0x5d])) := by
  rcases h with ⟨a, ⟨behindValue, left⟩, hvalue, hwalks⟩ | hbalks | ⟨a, hstrays⟩
  · cases left with
    | nil => exact .inl ⟨a, takes_enclosed_of_walks hwalks hgap⟩
    | cons i left =>
        exact .inr (refuses_enclosed_of_walks hwalks (hvalue i List.mem_cons_self) hgap)
  · exact .inr (refuses_enclosed_of_balks hbalks hgap)
  · exact .inr (refuses_enclosed_of_strays hstrays hgap)

/-- Judging what was read leaves nothing to chance. -/
theorem SettlesInside.judge (h : SettlesInside r s) (hf : ∀ a, (∃ b, f a = pure b) ∨ Yields (f a) fun _ => False) :
    SettlesInside (r >>= f) s := by
  have hbalks {a : α} (ha : Yields (f a) fun _ => False)
      (hr : ∀ pre rest p, Blanks pre → ∃ c, r ⟨pre ++ (s.text ++ rest), p⟩ = .done a c) : Balks (r >>= f) s := by
    intro pre rest p hpre
    obtain ⟨c, hr⟩ := hr pre rest p hpre
    rw [bind_done hr]
    cases hfailed : f a c with
    | done b c' => exact (ha _ _ _ hfailed).elim
    | failed e c' => exact ⟨e, c', rfl⟩
  rcases h with ⟨a, s', hvalue, hwalks⟩ | hr | ⟨a, hstrays⟩
  · rcases hf a with ⟨b, hb⟩ | ha
    · exact .inl ⟨b, s', hvalue, hwalks.bind (hb ▸ walks_pure b s')⟩
    · refine .inr (.inl (hbalks ha fun pre rest p hpre => ?_))
      obtain ⟨pre', q, -, hdone⟩ := hwalks pre rest p hpre
      exact ⟨_, hdone⟩
  · exact .inr (.inl (hr.bind f))
  · rcases hf a with ⟨b, hb⟩ | ha
    · refine .inr (.inr ⟨b, fun pre rest p hpre => ?_⟩)
      obtain ⟨first, more, q, hfirst, hdone⟩ := hstrays pre rest p hpre
      exact ⟨first, more, q, hfirst, by rw [bind_done hdone, hb, pure_apply]⟩
    · refine .inr (.inl (hbalks ha fun pre rest p hpre => ?_))
      obtain ⟨first, more, q, -, hdone⟩ := hstrays pre rest p hpre
      exact ⟨_, hdone⟩

end

end ChainHead.Json.Reader
