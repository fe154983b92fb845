import ChainHead.Proofs.Json.Grammar
import ChainHead.Proofs.Json.Yields

/-! What a reader makes of the text ahead, whatever stands behind that text: it takes the text as a value, or refuses
it. Strings, lists and records show where they end, so nothing is asked of what stands behind them; behind a number an
item has to end. A loop is followed along a path of its rounds, up to the round that answers or refuses. -/

namespace ChainHead.Json.Reader

variable {α β σ : Type}

/-- A reader takes a text as a value, whatever stands behind it. -/
def Takes (r : Reader α) (text : List UInt8) (a : α) : Prop :=
  ∀ rest p, ∃ q, r ⟨text ++ rest, p⟩ = .done a ⟨rest, q⟩

/-- A reader refuses a text, whatever stands behind it. -/
def Refuses (r : Reader α) (text : List UInt8) : Prop :=
  ∀ rest p, ∃ e c, r ⟨text ++ rest, p⟩ = .failed e c

/-- A reader takes a text as a value, if an item may end behind it. -/
def TakesItem (r : Reader α) (text : List UInt8) (a : α) : Prop :=
  ∀ rest p, endsItem rest = true → ∃ q, r ⟨text ++ rest, p⟩ = .done a ⟨rest, q⟩

/-- A reader refuses a text, if an item may end behind it. -/
def RefusesItem (r : Reader α) (text : List UInt8) : Prop :=
  ∀ rest p, endsItem rest = true → ∃ e c, r ⟨text ++ rest, p⟩ = .failed e c

/-- Whether a reader takes a text depends on nothing that stands behind it. -/
def SettlesItem (r : Reader α) (text : List UInt8) : Prop :=
  (∃ a, TakesItem r text a) ∨ RefusesItem r text

theorem Reads.takes {r : Reader α} {text : List UInt8} {a : α} (h : Reads r text a) : Takes r text a :=
  fun rest p => ⟨p.behind text, h rest p⟩

section

variable {r : Reader α} {f : α → Reader β} {text front back : List UInt8} {a : α} {b : β}

theorem takesItem_unique {a' : α} (h : TakesItem r text a) (h' : TakesItem r text a') : a = a' := by
  obtain ⟨q, h⟩ := h [] .first rfl
  obtain ⟨q', h'⟩ := h' [] .first rfl
  exact (Reply.done.inj (h.symm.trans h')).1

theorem not_takesItem_of_refusesItem (h : RefusesItem r text) (a : α) : ¬TakesItem r text a := by
  intro h'
  obtain ⟨e, c, h⟩ := h [] .first rfl
  obtain ⟨q, h'⟩ := h' [] .first rfl
  cases h.symm.trans h'

theorem Takes.item (h : Takes r text a) : TakesItem r text a := fun rest p _ => h rest p

theorem Refuses.item (h : Refuses r text) : RefusesItem r text := fun rest p _ => h rest p

theorem refuses_of_yields (h : Yields r fun _ => False) (text : List UInt8) : Refuses r text := by
  intro rest p
  cases hr : r ⟨text ++ rest, p⟩ with
  | done a c => exact (h _ _ _ hr).elim
  | failed e c => exact ⟨e, c, rfl⟩

theorem Takes.bind (hr : Takes r front a) (hf : Takes (f a) back b) : Takes (r >>= f) (front ++ back) b := by
  intro rest p
  obtain ⟨q, hr⟩ := hr (back ++ rest) p
  obtain ⟨q', hf⟩ := hf rest q
  exact ⟨q', by rw [List.append_assoc, bind_done hr, hf]⟩

theorem Takes.bind_item (hr : Takes r front a) (hf : TakesItem (f a) back b) :
    TakesItem (r >>= f) (front ++ back) b := by
  intro rest p hrest
  obtain ⟨q, hr⟩ := hr (back ++ rest) p
  obtain ⟨q', hf⟩ := hf rest q hrest
  exact ⟨q', by rw [List.append_assoc, bind_done hr, hf]⟩

theorem Takes.map (hr : Takes r text a) (g : α → β) : Takes (g <$> r) text (g a) := by
  intro rest p
  obtain ⟨q, hr⟩ := hr rest p
  exact ⟨q, bind_done hr⟩

theorem Refuses.bind (hr : Refuses r text) (f : α → Reader β) : Refuses (r >>= f) text := by
  intro rest p
  obtain ⟨e, c, hr⟩ := hr rest p
  exact ⟨e, c, bind_failed hr⟩

theorem RefusesItem.bind (hr : RefusesItem r text) (f : α → Reader β) : RefusesItem (r >>= f) text := by
  intro rest p hrest
  obtain ⟨e, c, hr⟩ := hr rest p hrest
  exact ⟨e, c, bind_failed hr⟩

theorem TakesItem.bind_nil (hr : TakesItem r text a) (hf : TakesItem (f a) [] b) : TakesItem (r >>= f) text b := by
  intro rest p hrest
  obtain ⟨q, hr⟩ := hr rest p hrest
  obtain ⟨q', hf⟩ := hf rest q hrest
  exact ⟨q', (bind_done hr).trans hf⟩

theorem TakesItem.bind_nil_refuses (hr : TakesItem r text a) (hf : RefusesItem (f a) []) :
    RefusesItem (r >>= f) text := by
  intro rest p hrest
  obtain ⟨q, hr⟩ := hr rest p hrest
  obtain ⟨e, c, hf⟩ := hf rest q hrest
  exact ⟨e, c, (bind_done hr).trans hf⟩

theorem TakesItem.map (hr : TakesItem r text a) (g : α → β) : TakesItem (g <$> r) text (g a) :=
  hr.bind_nil fun _ p _ => ⟨p, rfl⟩

/-- What is taken through an injective function is taken without it. -/
theorem TakesItem.of_map {g : α → β} (hg : Function.Injective g) (h : TakesItem (g <$> r) text b) :
    ∃ a, g a = b ∧ TakesItem r text a := by
  have hdone (rest p) (hrest : endsItem rest = true) : ∃ a q, g a = b ∧ r ⟨text ++ rest, p⟩ = .done a ⟨rest, q⟩ := by
    obtain ⟨q, h⟩ := h rest p hrest
    obtain ⟨a, c, hr, ha⟩ := exists_of_bind_done h
    cases ha
    exact ⟨a, q, rfl, hr⟩
  obtain ⟨a, -, ha, -⟩ := hdone [] .first rfl
  refine ⟨a, ha, fun rest p hrest => ?_⟩
  obtain ⟨a', q, ha', hr⟩ := hdone rest p hrest
  obtain rfl := hg (ha'.trans ha.symm)
  exact ⟨q, hr⟩

theorem SettlesItem.bind (hr : SettlesItem r text) (hf : ∀ a, SettlesItem (f a) []) : SettlesItem (r >>= f) text := by
  rcases hr with ⟨a, hr⟩ | hr
  · rcases hf a with ⟨b, hf⟩ | hf
    · exact .inl ⟨b, hr.bind_nil hf⟩
    · exact .inr (hr.bind_nil_refuses hf)
  · exact .inr (hr.bind f)

theorem SettlesItem.map (hr : SettlesItem r text) (g : α → β) : SettlesItem (g <$> r) text :=
  hr.imp (fun ⟨a, h⟩ => ⟨g a, h.map g⟩) fun h => h.bind _

theorem TakesItem.located (hr : TakesItem r text a) : TakesItem (located r) text a := by
  intro rest p hrest
  obtain ⟨q, hr⟩ := hr rest p hrest
  exact ⟨q, located_done hr⟩

theorem Takes.located (hr : Takes r text a) : Takes (located r) text a := by
  intro rest p
  obtain ⟨q, hr⟩ := hr rest p
  exact ⟨q, located_done hr⟩

theorem located_failed {c c' : Cursor} {e : Failure} (h : r c = .failed e c') :
    ∃ e', Reader.located r c = .failed e' c' := by
  obtain ⟨reason, position⟩ := e
  rw [Reader.located, h]
  cases position with
  | none => exact ⟨_, rfl⟩
  | some q => exact ⟨_, rfl⟩

theorem Refuses.located (hr : Refuses r text) : Refuses (located r) text := by
  intro rest p
  obtain ⟨e, c, hr⟩ := hr rest p
  obtain ⟨e', hr⟩ := located_failed hr
  exact ⟨e', c, hr⟩

theorem RefusesItem.located (hr : RefusesItem r text) : RefusesItem (located r) text := by
  intro rest p hrest
  obtain ⟨e, c, hr⟩ := hr rest p hrest
  obtain ⟨e', hr⟩ := located_failed hr
  exact ⟨e', c, hr⟩

theorem SettlesItem.located (hr : SettlesItem r text) : SettlesItem (located r) text :=
  hr.imp (fun ⟨a, h⟩ => ⟨a, h.located⟩) RefusesItem.located

end

/-! ### Readers that go on as others -/

/-- A reader goes on as another one does behind the front part of a text. -/
def GoesOn (r : Reader α) (text : List UInt8) (r' : Reader α) (text' : List UInt8) : Prop :=
  ∀ rest p, ∃ q, r ⟨text ++ rest, p⟩ = r' ⟨text' ++ rest, q⟩

/-- A reader goes on as another one does behind the front part of a text, if an item may end behind it. -/
def GoesOnItem (r : Reader α) (text : List UInt8) (r' : Reader α) (text' : List UInt8) : Prop :=
  ∀ rest p, endsItem rest = true → ∃ q, r ⟨text ++ rest, p⟩ = r' ⟨text' ++ rest, q⟩

section

variable {r r' r'' : Reader α} {text text' text'' : List UInt8} {a : α}

theorem GoesOn.item (h : GoesOn r text r' text') : GoesOnItem r text r' text' := fun rest p _ => h rest p

theorem GoesOn.trans (h : GoesOn r text r' text') (h' : GoesOn r' text' r'' text'') : GoesOn r text r'' text'' := by
  intro rest p
  obtain ⟨q, h⟩ := h rest p
  obtain ⟨q', h'⟩ := h' rest q
  exact ⟨q', h.trans h'⟩

theorem GoesOnItem.trans (h : GoesOnItem r text r' text') (h' : GoesOnItem r' text' r'' text'') :
    GoesOnItem r text r'' text'' := by
  intro rest p hrest
  obtain ⟨q, h⟩ := h rest p hrest
  obtain ⟨q', h'⟩ := h' rest q hrest
  exact ⟨q', h.trans h'⟩

theorem GoesOn.located (h : GoesOn r text r' text') : GoesOn (located r) text (located r') text' := by
  intro rest p
  obtain ⟨q, h⟩ := h rest p
  exact ⟨q, by rw [Reader.located, h, Reader.located]⟩

theorem Takes.of_goesOn (hr : GoesOn r text r' text') (h : Takes r' text' a) : Takes r text a := by
  intro rest p
  obtain ⟨q, hr⟩ := hr rest p
  obtain ⟨q', h⟩ := h rest q
  exact ⟨q', hr.trans h⟩

theorem Refuses.of_goesOn (hr : GoesOn r text r' text') (h : Refuses r' text') : Refuses r text := by
  intro rest p
  obtain ⟨q, hr⟩ := hr rest p
  obtain ⟨e, c, h⟩ := h rest q
  exact ⟨e, c, hr.trans h⟩

theorem TakesItem.of_goesOnItem (hr : GoesOnItem r text r' text') (h : TakesItem r' text' a) :
    TakesItem r text a := by
  intro rest p hrest
  obtain ⟨q, hr⟩ := hr rest p hrest
  obtain ⟨q', h⟩ := h rest q hrest
  exact ⟨q', hr.trans h⟩

theorem RefusesItem.of_goesOnItem (hr : GoesOnItem r text r' text') (h : RefusesItem r' text') :
    RefusesItem r text := by
  intro rest p hrest
  obtain ⟨q, hr⟩ := hr rest p hrest
  obtain ⟨e, c, h⟩ := h rest q hrest
  exact ⟨e, c, hr.trans h⟩

theorem SettlesItem.of_goesOnItem (hr : GoesOnItem r text r' text') (h : SettlesItem r' text') : SettlesItem r text :=
  h.imp (fun ⟨a, h⟩ => ⟨a, .of_goesOnItem hr h⟩) (.of_goesOnItem hr)

/-- What the one reader takes a text as, the other one can answer with. -/
theorem TakesItem.of_yields (hr : GoesOnItem r text r' text') {P : α → Prop} (hy : Yields r' P)
    (h : TakesItem r text a) : P a := by
  obtain ⟨q, hr⟩ := hr [] .first rfl
  obtain ⟨q', h⟩ := h [] .first rfl
  exact hy _ _ _ (hr.symm.trans h)

end

section

variable {r : Reader α} {f : α → Reader β} {g : Option UInt8 → Reader β} {front text : List UInt8} {a : α} {b : UInt8}

theorem Takes.goesOn (h : Takes r front a) : GoesOn (r >>= f) (front ++ text) (f a) text := by
  intro rest p
  obtain ⟨q, h⟩ := h (text ++ rest) p
  exact ⟨q, by rw [List.append_assoc, bind_done h]⟩

theorem goesOn_eat {f : Unit → Reader β} : GoesOn (eat >>= f) (b :: text) (f ()) text :=
  (Reads.eat b).takes.goesOn

theorem goesOn_ahead (hb : isBlank b = false) : GoesOn (ahead >>= g) (b :: text) (g (some b)) (b :: text) :=
  fun rest p => ⟨p, ahead_bind_apply hb g (text ++ rest) p⟩

end

/-! ### Where a refusal leaves off -/

/-- A reader refuses a text and leaves some bytes of it unread. -/
def Stops (r : Reader α) (text tail : List UInt8) : Prop :=
  ∀ rest p, endsItem rest = true → ∃ e q, r ⟨text ++ rest, p⟩ = .failed e ⟨tail ++ rest, q⟩

section

variable {r r' : Reader α} {f : α → Reader β} {g : Option UInt8 → Reader α} {text text' tail : List UInt8} {a : α}
  {b : UInt8}

theorem Stops.of_goesOnItem (hr : GoesOnItem r text r' text') (h : Stops r' text' tail) : Stops r text tail := by
  intro rest p hrest
  obtain ⟨q, hr⟩ := hr rest p hrest
  obtain ⟨e, q', h⟩ := h rest q hrest
  exact ⟨e, q', hr.trans h⟩

theorem Stops.located (h : Stops r text tail) : Stops (located r) text tail := by
  intro rest p hrest
  obtain ⟨e, q, h⟩ := h rest p hrest
  obtain ⟨e', h⟩ := located_failed h
  exact ⟨e', q, h⟩

theorem Stops.bind (h : Stops r text tail) (f : α → Reader β) : Stops (r >>= f) text tail := by
  intro rest p hrest
  obtain ⟨e, q, h⟩ := h rest p hrest
  exact ⟨e, q, bind_failed h⟩

theorem TakesItem.bind_stops (h : TakesItem r text a) (hf : Stops (f a) [] []) : Stops (r >>= f) text [] := by
  intro rest p hrest
  obtain ⟨q, h⟩ := h rest p hrest
  obtain ⟨e, q', hf⟩ := hf rest q hrest
  exact ⟨e, q', (bind_done h).trans hf⟩

theorem Stops.refusesItem (h : Stops r text tail) : RefusesItem r text := by
  intro rest p hrest
  obtain ⟨e, q, h⟩ := h rest p hrest
  exact ⟨e, _, h⟩

theorem stops_refuseValue (reason : Reason) (text : List UInt8) : Stops (refuseValue reason : Reader α) text text :=
  fun _ p _ => ⟨_, p, rfl⟩

theorem stops_eat {g : Unit → Reader α} (h : Stops (g ()) text tail) : Stops (eat >>= g) (b :: text) tail :=
  .of_goesOnItem goesOn_eat.item h

theorem stops_ahead (hb : isBlank b = false) (h : Stops (g (some b)) (b :: text) tail) :
    Stops (ahead >>= g) (b :: text) tail :=
  .of_goesOnItem (goesOn_ahead hb).item h

theorem stops_peek (h : Stops (g (some b)) (b :: text) tail) : Stops (peek >>= g) (b :: text) tail :=
  fun rest p hrest => h rest p hrest

end

/-! ### Blanks -/

theorem skipBlanksFrom_append {bytes : List UInt8} (h : Blanks bytes) (rest : List UInt8) (p : Position) :
    skipBlanksFrom p (bytes ++ rest) = skipBlanksFrom (p.behind bytes) rest := by
  induction bytes generalizing p with
  | nil => rfl
  | cons b bytes ih =>
      obtain ⟨hb, hbytes⟩ := List.forall_mem_cons.mp h
      rw [List.cons_append, skipBlanksFrom, if_pos hb]
      exact ih hbytes (p.after b)

/-- A reader passes over the blanks ahead. -/
def SkipsBlanks (r : Reader α) : Prop :=
  ∀ bytes rest p, Blanks bytes → r ⟨bytes ++ rest, p⟩ = r ⟨rest, p.behind bytes⟩

theorem skipsBlanks_ahead (g : Option UInt8 → Reader β) : SkipsBlanks (ahead >>= g) := by
  intro bytes rest p h
  have hblanks : blanks ⟨bytes ++ rest, p⟩ = blanks ⟨rest, p.behind bytes⟩ := by
    rw [blanks, blanks, skipBlanksFrom_append h]
  have hahead : ahead ⟨bytes ++ rest, p⟩ = ahead ⟨rest, p.behind bytes⟩ := by
    rw [ahead, bind_apply, bind_apply, hblanks]
  rw [bind_apply, bind_apply, hahead]

section

variable {r : Reader α} {bytes text : List UInt8}

theorem SkipsBlanks.located (h : SkipsBlanks r) : SkipsBlanks (located r) := by
  intro bytes rest p hbytes
  rw [Reader.located, Reader.located, h bytes rest p hbytes]

theorem SkipsBlanks.bind (h : SkipsBlanks r) (f : α → Reader β) : SkipsBlanks (r >>= f) := by
  intro bytes rest p hbytes
  rw [bind_apply, bind_apply, h bytes rest p hbytes]

theorem SkipsBlanks.map (h : SkipsBlanks r) (g : α → β) : SkipsBlanks (g <$> r) := h.bind fun a => pure (g a)

theorem SkipsBlanks.goesOn (h : SkipsBlanks r) (hbytes : Blanks bytes) : GoesOn r (bytes ++ text) r text :=
  fun rest p => ⟨p.behind bytes, by rw [List.append_assoc, h bytes _ p hbytes]⟩

end

/-! ### Loops -/

section

variable {step : σ → Reader (σ ⊕ β)} {s s' s'' : σ} {c c' c'' : Cursor}

/-- Rounds of a loop, each of which reads something, one behind the other. -/
inductive Path (step : σ → Reader (σ ⊕ β)) : σ → Cursor → σ → Cursor → Prop
  | here (s : σ) (c : Cursor) : Path step s c s c
  | on {s s' s'' : σ} {c c' c'' : Cursor} (h : step s c = .done (.inl s') c')
      (hless : c'.rest.length < c.rest.length) (more : Path step s' c' s'' c'') : Path step s c s'' c''

theorem Path.trans (h : Path step s c s' c') (h' : Path step s' c' s'' c'') : Path step s c s'' c'' := by
  induction h with
  | here s c => exact h'
  | on h hless more ih => exact .on h hless (ih h')

theorem exists_iterate_of_path (h : Path step s c s' c') (fuel : List UInt8) (hfuel : c.rest.length < fuel.length) :
    ∃ b more, iterate step fuel s c = iterate step (b :: more) s' c' := by
  induction h generalizing fuel with
  | here s c =>
      obtain ⟨b, more, rfl⟩ := List.exists_cons_of_length_pos (Nat.lt_of_le_of_lt (Nat.zero_le _) hfuel)
      exact ⟨b, more, rfl⟩
  | on h hless more ih =>
      cases fuel with
      | nil => simp at hfuel
      | cons b fuel =>
          rw [List.length_cons] at hfuel
          obtain ⟨d, left, hleft⟩ := ih fuel (by omega)
          exact ⟨d, left, (bind_done h).trans hleft⟩

theorem loop_done_of_path (h : Path step s c s' c') {b : β} (hlast : step s' c' = .done (.inr b) c'') :
    loop step s c = .done b c'' := by
  obtain ⟨d, more, hmore⟩ := exists_iterate_of_path h (0 :: c.rest) (Nat.lt_succ_self _)
  exact hmore.trans (bind_done hlast)

theorem loop_failed_of_path (h : Path step s c s' c') {e : Failure} (hlast : step s' c' = .failed e c'') :
    loop step s c = .failed e c'' := by
  obtain ⟨d, more, hmore⟩ := exists_iterate_of_path h (0 :: c.rest) (Nat.lt_succ_self _)
  exact hmore.trans (bind_failed hlast)

end

end ChainHead.Json.Reader
