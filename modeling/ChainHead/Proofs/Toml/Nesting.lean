import ChainHead.Proofs.Toml.Yields

/-! How deep a document may be nested. The limit decides about nothing else: a reader with a smaller limit answers, and
refuses, as one with a larger limit does, or it finds the text too deep. So each text has one document at most, however
deep its reader goes. -/

namespace ChainHead.Toml

def Fault.isTooDeep (f : Fault) : Bool := f.reason = .flaw .tooDeep

namespace Reader

variable {α β σ : Type}

theorem bind_ok {r : Reader α} {f : α → Reader β} {s s' : Source} {a : α} (h : r s = .ok (a, s')) :
    (r >>= f) s = f a s' := by
  change (r s >>= fun answer => f answer.1 answer.2) = _
  rw [h]
  rfl

theorem bind_error {r : Reader α} {f : α → Reader β} {s : Source} {fault : Fault} (h : r s = .error fault) :
    (r >>= f) s = .error fault := by
  change (r s >>= fun answer => f answer.1 answer.2) = _
  rw [h]
  rfl

/-- One reader does as another one does, unless it finds the text too deep. -/
def Within (r r' : Reader α) : Prop :=
  ∀ s, r s = r' s ∨ ∃ fault : Fault, r s = .error fault ∧ fault.isTooDeep = true

namespace Within

variable {r r' : Reader α} {f f' : α → Reader β}

theorem refl (r : Reader α) : Within r r := fun _ => .inl rfl

theorem tooDeep : Within (refuse .tooDeep) r' := fun _ => .inr ⟨_, rfl, rfl⟩

theorem tooDeep_bind {f : β → Reader α} : Within (refuse .tooDeep >>= f) r' := fun _ => .inr ⟨_, rfl, rfl⟩

theorem bind (hr : Within r r') (hf : ∀ a, Within (f a) (f' a)) : Within (r >>= f) (r' >>= f') := by
  intro s
  rcases hr s with heq | ⟨fault, hfault, hdeep⟩
  · cases hread : r' s with
    | error fault =>
        left
        rw [bind_error (heq.trans hread), bind_error hread]
    | ok answer =>
        rw [bind_ok (heq.trans hread), bind_ok hread]
        exact hf answer.1 answer.2
  · exact .inr ⟨fault, bind_error hfault, hdeep⟩

/-- What comes behind the same reader. -/
theorem behind (hf : ∀ a, Within (f a) (f' a)) : Within (r >>= f) (r >>= f') := (refl r).bind hf

theorem ite {c : Prop} [Decidable c] {q q' : Reader α} (hr : Within r r') (hq : Within q q') :
    Within (if c then r else q) (if c then r' else q') := by
  split_ifs
  · exact hr
  · exact hq

theorem spanned (hr : Within r r') : Within (spanned r) (spanned r') :=
  behind fun _ => hr.bind fun _ => refl _

theorem loop {step step' : σ → Reader (σ ⊕ α)} (hstep : ∀ a, Within (step a) (step' a)) (a : σ) :
    Within (loop step a) (loop step' a) := by
  have hiterate (fuel : List Char) : ∀ a, Within (iterate step fuel a) (iterate step' fuel a) := by
    induction fuel with
    | nil => exact fun _ => refl _
    | cons _ fuel ih =>
        refine fun a => (hstep a).bind fun answer => ?_
        cases answer with
        | inl next => exact ih next
        | inr b => exact refl _
  exact behind fun _ => hiterate _ a

end Within

variable {m n : Nat} {inner inner' : Reader Node}

theorem within_keys (h : m ≤ n) : Within (keys m) (keys n) := by
  refine .behind fun path => ?_
  dsimp only
  split_ifs with hm hn hn
  · exact .refl _
  · exact .tooDeep_bind
  · exact absurd (h.trans hn) hm
  · exact .refl _

theorem within_member (h : m ≤ n) (hvalue : Within inner inner') : Within (member m inner) (member n inner') :=
  (within_keys h).bind fun _ => .behind fun _ => .ite (.refl _) (.behind fun _ => hvalue.bind fun _ => .refl _)

theorem within_list (hvalue : Within inner inner') : Within (list inner) (list inner') := by
  have hstep (done : List Node) : Within (itemStep inner done) (itemStep inner' done) :=
    .behind fun _ => .behind fun _ => .ite (.refl _) (hvalue.bind fun _ => .refl _)
  exact (Within.behind fun _ => .loop hstep []).spanned.bind fun _ => .refl _

theorem within_braces (h : m ≤ n) (hvalue : Within inner inner') : Within (braces m inner) (braces n inner') := by
  have hstep (done : Entries) : Within (memberStep m inner done) (memberStep n inner' done) :=
    (within_member h hvalue).spanned.bind fun _ => .refl _
  have hinside : Within
      (do
        eat 1
        blanks
        if ← accept ['\x7d'] then return []
        loop (memberStep m inner) [])
      (do
        eat 1
        blanks
        if ← accept ['\x7d'] then return []
        loop (memberStep n inner') []) :=
    .behind fun _ => .behind fun _ => .behind fun _ => .ite (.refl _) (.loop hstep [])
  exact hinside.spanned.bind fun _ => .refl _

theorem peek_eq (s : Source) : peek s = .ok (s.rest.head?, s) := rfl

/-- No scalar begins as a list or a table does. -/
theorem scalar_eq_tooDeep {s : Source} {c : Char} (hfirst : s.rest.head? = some c) (hc : c = '[' ∨ c = '\x7b') :
    ∃ fault : Fault, scalar s = .error fault ∧ fault.isTooDeep = true := by
  obtain ⟨offset, rest⟩ := s
  obtain ⟨tail, rfl⟩ := List.head?_eq_some_iff.mp hfirst
  rcases hc with rfl | rfl
  · exact ⟨_, rfl, rfl⟩
  · exact ⟨_, rfl, rfl⟩

theorem within_scalar (levels : Nat) : Within scalar (value n levels) := by
  cases levels with
  | zero => exact .refl _
  | succ levels =>
      intro s
      rw [value, bind_ok (peek_eq s)]
      cases hfirst : s.rest.head? with
      | none => exact .inl rfl
      | some c =>
          by_cases hc : c = '[' ∨ c = '\x7b'
          · exact .inr (scalar_eq_tooDeep hfirst hc)
          · obtain ⟨hlist, hbraces⟩ := not_or.mp hc
            left
            simp [hlist, hbraces]

theorem within_value (h : m ≤ n) {levels levels' : Nat} (hlevels : levels ≤ levels') :
    Within (value m levels) (value n levels') := by
  induction levels generalizing levels' with
  | zero => exact within_scalar levels'
  | succ levels ih =>
      cases levels' with
      | zero => exact absurd hlevels (Nat.not_succ_le_zero levels)
      | succ levels' =>
          have hinner := ih (Nat.le_of_succ_le_succ hlevels)
          refine .behind fun first => ?_
          split
          · exact within_list hinner
          · exact within_braces h hinner
          · exact .refl _

theorem within_header (h : m ≤ n) : Within (header m) (header n) :=
  .behind fun _ => (within_keys h).bind fun _ => .refl _

theorem within_statement (h : m ≤ n) (d : Draft) : Within (statement m d) (statement n d) := by
  refine .behind fun _ => .ite ?_ ?_
  · exact (Within.behind fun _ => within_header h).spanned.bind fun _ => .refl _
  · have hvalue : Within (value m (m - 1)) (value n (n - 1)) := within_value h (Nat.sub_le_sub_right h 1)
    exact (within_member h hvalue).spanned.bind fun _ => .refl _

theorem within_lineStep (h : m ≤ n) (d : Draft) : Within (lineStep m d) (lineStep n d) := by
  refine .behind fun _ => .behind fun first => ?_
  split
  · exact .refl _
  · exact .refl _
  · exact .ite (.refl _) ((within_statement h d).bind fun _ => .refl _)

theorem within_document (h : m ≤ n) : Within (document m) (document n) :=
  .behind fun _ => (Within.loop (within_lineStep h) _).bind fun _ => .refl _

end Reader

namespace Document

variable {m n : Nat} {text : String} {d d' : Document}

theorem readWithin_of_le (h : m ≤ n) (text : String) : readWithin m text = readWithin n text ∨
    ∃ fault : Fault, readWithin m text = .error fault ∧ fault.isTooDeep = true := by
  rcases Reader.within_document h ⟨0, text.toList⟩ with heq | ⟨fault, hfault, hdeep⟩
  · left
    rw [readWithin, StateT.run, heq]
    rfl
  · right
    refine ⟨fault, ?_, hdeep⟩
    rw [readWithin, StateT.run, hfault]
    rfl

/-- A text is a document, which may be nested however deep. -/
def Of (text : String) (d : Document) : Prop := ∃ limit, readWithin limit text = .ok d

def NestedTooDeep (text : String) : Prop := ∃ fault : Fault, read text = .error fault ∧ fault.isTooDeep = true

/-- A document that is not nested too deep is read. -/
theorem Of.read_or (h : Of text d) : read text = .ok d ∨ NestedTooDeep text := by
  obtain ⟨limit, h⟩ := h
  rcases Nat.le_total limit Reader.levelLimit with hle | hle
  · rcases readWithin_of_le hle text with heq | ⟨fault, hfault, -⟩
    · exact .inl (heq.symm.trans h)
    · cases h.symm.trans hfault
  · exact (readWithin_of_le hle text).imp_left fun heq => heq.trans h

theorem not_nestedTooDeep (h : read text = .ok d) : ¬ NestedTooDeep text := by
  rintro ⟨fault, hfault, -⟩
  cases h.symm.trans hfault

instance (text : String) : Decidable (NestedTooDeep text) :=
  match h : read text with
  | .ok _ => .isFalse (not_nestedTooDeep h)
  | .error fault =>
    if hdeep : fault.isTooDeep = true then .isTrue ⟨fault, h, hdeep⟩
    else .isFalse fun ⟨_, hfault, hdeep'⟩ => hdeep (Except.error.inj (h.symm.trans hfault) ▸ hdeep')

/-- A text has one document, however deep the reader goes. -/
theorem Of.unique (h : Of text d) (h' : Of text d') : d = d' := by
  obtain ⟨m, h⟩ := h
  obtain ⟨n, h'⟩ := h'
  rcases Nat.le_total m n with hle | hle
  · rcases readWithin_of_le hle text with heq | ⟨fault, hfault, -⟩
    · exact Except.ok.inj (h.symm.trans (heq.trans h'))
    · cases h.symm.trans hfault
  · rcases readWithin_of_le hle text with heq | ⟨fault, hfault, -⟩
    · exact Except.ok.inj (h.symm.trans (heq.symm.trans h'))
    · cases h'.symm.trans hfault

end Document

end ChainHead.Toml
