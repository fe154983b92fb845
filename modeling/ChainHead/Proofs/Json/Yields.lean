import ChainHead.Proofs.Json.Reads
import Mathlib.Data.String.Basic
import Mathlib.Tactic.SplitIfs

/-! What a reader can answer at all. `Yields r P` says that every answer of a reader, from any text, has a property.
It composes along the sequence of readers and along the rounds of a loop. The values that are read are tidy: they are
nested no deeper than allowed, and the members of a record stand in the order of their keys. -/

namespace ChainHead.Json

namespace Reader

variable {α β : Type}

def Yields (r : Reader α) (P : α → Prop) : Prop :=
  ∀ c a c', r c = .done a c' → P a

theorem exists_of_bind_done {r : Reader α} {f : α → Reader β} {c c' : Cursor} {b : β}
    (h : (r >>= f) c = .done b c') : ∃ a c₁, r c = .done a c₁ ∧ f a c₁ = .done b c' := by
  cases hr : r c with
  | failed e c₁ =>
      rw [bind_failed hr] at h
      cases h
  | done a c₁ =>
      rw [bind_done hr] at h
      exact ⟨a, c₁, rfl, h⟩

theorem located_eq_done {r : Reader α} {a : α} {c c' : Cursor} (h : located r c = .done a c') : r c = .done a c' := by
  rw [located] at h
  split at h
  · cases h
  · exact h

theorem exists_of_enclosed_done {r : Reader α} {close : Reader Unit} {a : α} {c c' : Cursor}
    (h : enclosed r close c = .done a c') : ∃ c₁, r c = .done a c₁ := by
  obtain ⟨answer, c₁, hattempt, hanswer⟩ := exists_of_bind_done h
  rw [attempt] at hattempt
  cases hread : r c with
  | failed e c₂ =>
      rw [hread] at hattempt
      cases hattempt
      obtain ⟨_, _, _, hfail⟩ := exists_of_bind_done hanswer
      cases hfail
  | done b c₂ =>
      rw [hread] at hattempt
      cases hattempt
      obtain ⟨_, _, _, hb⟩ := exists_of_bind_done hanswer
      cases hb
      exact ⟨_, rfl⟩

namespace Yields

variable {r : Reader α} {f : α → Reader β} {P : α → Prop} {Q : β → Prop}

theorem any (r : Reader α) : Yields r fun _ => True := fun _ _ _ _ => trivial

theorem answers (r : Reader α) : Yields r fun a => ∃ c c', r c = .done a c' := fun c _ c' h => ⟨c, c', h⟩

theorem refuse (reason : Reason) : Yields (refuse reason) P := fun _ _ _ h => nomatch h

theorem refuseNext (reason : Reason) : Yields (refuseNext reason) P := fun _ _ _ h => nomatch h

theorem refuseValue (reason : Reason) : Yields (refuseValue reason) P := fun _ _ _ h => nomatch h

theorem pure {a : α} (h : P a) : Yields (pure a) P := by
  intro c a' c' hr
  cases hr
  exact h

theorem bind (hr : Yields r P) (hf : ∀ a, P a → Yields (f a) Q) : Yields (r >>= f) Q := by
  intro c b c' h
  obtain ⟨a, c₁, ha, hb⟩ := exists_of_bind_done h
  exact hf a (hr c a c₁ ha) c₁ b c' hb

/-- What was read before does not matter. -/
theorem behind (hf : ∀ a, Yields (f a) Q) : Yields (r >>= f) Q :=
  (any r).bind fun a _ => hf a

theorem map (hr : Yields r P) {g : α → β} (hg : ∀ a, P a → Q (g a)) : Yields (g <$> r) Q :=
  hr.bind fun a ha => .pure (hg a ha)

theorem located (hr : Yields r P) : Yields (located r) P :=
  fun c a c' h => hr c a c' (located_eq_done h)

theorem enclosed (hr : Yields r P) (close : Reader Unit) : Yields (enclosed r close) P := by
  intro c a c' h
  obtain ⟨c₁, hread⟩ := exists_of_enclosed_done h
  exact hr c a c₁ hread

/-- An invariant of the states of a loop holds until the step answers. -/
theorem loop {σ : Type} {step : σ → Reader (σ ⊕ α)} {Inv : σ → Prop}
    (hstep : ∀ s, Inv s → Yields (step s) (Sum.elim Inv P)) {s : σ} (hs : Inv s) : Yields (loop step s) P := by
  have hiterate (fuel : List UInt8) : ∀ s, Inv s → Yields (iterate step fuel s) P := by
    induction fuel with
    | nil => exact fun _ _ => .refuse _
    | cons _ fuel ih =>
        intro s hs
        refine (hstep s hs).bind fun answer hanswer => ?_
        cases answer with
        | inl s' => exact ih s' hanswer
        | inr a => exact .pure hanswer
  exact fun c a c' h => hiterate _ s hs c a c' h

/-- The items of a list are answers of the reader of items. -/
theorem items (hr : Yields r P) : Yields (items r) fun as => ∀ a ∈ as, P a := by
  have hstep (seen : List α) (hseen : ∀ a ∈ seen, P a) :
      Yields (itemStep r seen) (Sum.elim (fun seen => ∀ a ∈ seen, P a) fun as => ∀ a ∈ as, P a) := by
    refine behind fun more => ?_
    cases more with
    | false => exact .pure fun a ha => hseen a (List.mem_reverse.mp ha)
    | true => exact hr.bind fun a ha => .pure (List.forall_mem_cons.mpr ⟨ha, hseen⟩)
  exact loop hstep fun _ h => nomatch h

theorem listOf {inside : Nat → Reader α} {levels : Nat} (h : ∀ inner, levels = inner + 1 → Yields (inside inner) P) :
    Yields (listOf levels inside) P := by
  cases levels with
  | zero => exact .refuseNext _
  | succ inner => exact .behind fun _ => (h inner rfl).enclosed endList

theorem recordOf {inside : Nat → Reader α} {levels : Nat} (h : ∀ inner, levels = inner + 1 → Yields (inside inner) P) :
    Yields (recordOf levels inside) P := by
  cases levels with
  | zero => exact .refuseNext _
  | succ inner => exact .behind fun _ => (h inner rfl).enclosed endRecord

/-- A value of the wrong form is never answered with. -/
theorem unexpected (expected : String) : Yields (unexpected expected) P := by
  refine .located (.behind fun first => ?_)
  split
  · exact .behind fun _ => .behind fun _ => .refuseValue _
  · exact .behind fun _ => .behind fun _ => .refuseValue _
  · exact .behind fun _ => .behind fun _ => .refuseValue _
  · exact .behind fun _ => .behind fun _ => .refuseValue _
  · exact .behind fun _ => .behind fun _ => .refuseValue _
  · exact .refuseValue _
  · exact .refuseValue _
  · split_ifs
    · exact .behind fun _ => .refuseValue _
    · exact .refuseNext _
  · exact .refuseNext _

end Yields

theorem yields_of_run {r : Nat → Reader α} {P : α → Prop} (h : Yields (r levels) P) {bytes : List UInt8} {a : α}
    (ha : run r bytes = .ok a) : P a := by
  rw [run] at ha
  split at ha
  · rename_i hdone
    cases ha
    obtain ⟨b, c, hb, hend⟩ := exists_of_bind_done hdone
    obtain ⟨_, _, _, hend⟩ := exists_of_bind_done hend
    split at hend
    · cases hend
      exact h _ _ _ hb
    · cases hend
  · cases ha

end Reader

/-! ### Numbers -/

/-- A negative number fits 64 bits. -/
def Number.Fits : Number → Prop
  | .negative k => k < 0x8000000000000000
  | _ => True

namespace Reader

section

variable {P : Number → Prop} (hreal : ∀ bits, P (.real bits))

include hreal

theorem yields_real (positive : Bool) (significand : Nat) (exponent : Int) :
    Yields (real positive significand exponent) P := by
  rw [real]
  split
  · exact .pure (hreal _)
  · exact .refuse _

theorem yields_exponentPart (positive : Bool) (significand : Nat) (exponent : Int) :
    Yields (exponentPart positive significand exponent) P := by
  refine .behind fun _ => .behind fun up => .behind fun first => ?_
  cases first with
  | none => exact .refuse _
  | some b =>
      by_cases hdigit : (0x30 ≤ b && b ≤ 0x39) = true
      · simp only [if_pos hdigit]
        refine .behind fun size => ?_
        cases size with
        | some n => exact yields_real hreal _ _ _
        | none =>
            by_cases hhuge : (significand ≠ 0 && up) = true
            · simp only [if_pos hhuge]
              exact .refuse _
            · simp only [if_neg hhuge]
              exact .behind fun _ => .pure (hreal _)
      · simp only [if_neg hdigit]
        exact .refuse _

variable {positive : Bool} (hnatural : positive = true → ∀ n, P (.natural n))
  (hnegative : ∀ k < 0x8000000000000000, P (.negative k))

include hnatural hnegative

theorem yields_fractionPart (significand dropped : Nat) : Yields (fractionPart positive significand dropped) P := by
  refine .behind fun first => ?_
  split
  · refine .behind fun _ => .behind fun fraction => ?_
    split_ifs
    · refine .behind fun more => ?_
      cases more
      · exact .refuseNext _
      · exact .refuseNext _
    · refine .behind fun more => ?_
      split
      · exact yields_exponentPart hreal _ _ _
      · exact yields_exponentPart hreal _ _ _
      · exact yields_real hreal _ _ _
  · exact yields_exponentPart hreal _ _ _
  · exact yields_exponentPart hreal _ _ _
  · split_ifs with _ hpositive hsize
    · exact yields_real hreal _ _ _
    · exact .pure (hnatural hpositive _)
    · exact .pure (hreal _)
    · refine .pure (hnegative _ ?_)
      simp only [Bool.or_eq_true, decide_eq_true_eq, not_or] at hsize
      omega

/-- The number that is read is a real, or an integer of its sign that fits 64 bits. -/
theorem yields_number_of : Yields (number positive) P := by
  refine .behind fun first => ?_
  split
  · exact .refuse _
  · refine .behind fun more => ?_
    cases more with
    | none => exact yields_fractionPart hreal hnatural hnegative _ _
    | some b =>
        dsimp only
        split_ifs
        · exact .refuseNext _
        · exact yields_fractionPart hreal hnatural hnegative _ _
  · split_ifs
    · exact .behind fun _ => yields_fractionPart hreal hnatural hnegative _ _
    · exact .refuse _

end

theorem yields_number (positive : Bool) : Yields (number positive) Number.Fits :=
  yields_number_of (fun _ => trivial) (fun _ _ => trivial) fun _ hk => hk

end Reader

/-! ### Records -/

/-- Members of a record in the order of their keys. -/
def Ordered (members : List (String × Value)) : Prop := members.Pairwise fun a b => a.1 < b.1

theorem eq_or_mem_of_mem_insertMember {key : String} {v : Value} {members : List (String × Value)} {m : String × Value}
    (h : m ∈ insertMember key v members) : m = (key, v) ∨ m ∈ members := by
  induction members with
  | nil => exact .inl (List.mem_singleton.mp h)
  | cons n rest ih =>
      obtain ⟨k, w⟩ := n
      rw [insertMember] at h
      split_ifs at h
      · exact (List.mem_cons.mp h).imp_right (List.mem_cons_of_mem _)
      · exact List.mem_cons.mp h
      · rcases List.mem_cons.mp h with rfl | h
        · exact .inr List.mem_cons_self
        · exact (ih h).imp_right (List.mem_cons_of_mem _)

theorem ordered_insertMember (key : String) (v : Value) {members : List (String × Value)} (h : Ordered members) :
    Ordered (insertMember key v members) := by
  induction members with
  | nil => exact List.pairwise_singleton _ _
  | cons n rest ih =>
      obtain ⟨k, w⟩ := n
      obtain ⟨hfirst, hrest⟩ := List.pairwise_cons.mp h
      rw [insertMember]
      split_ifs with heq hless
      · subst heq
        exact List.pairwise_cons.mpr ⟨hfirst, hrest⟩
      · refine List.pairwise_cons.mpr ⟨fun m hm => ?_, h⟩
        rcases List.mem_cons.mp hm with rfl | hm
        · exact hless
        · exact hless.trans (hfirst m hm)
      · refine List.pairwise_cons.mpr ⟨fun m hm => ?_, ih hrest⟩
        rcases eq_or_mem_of_mem_insertMember hm with rfl | hm
        · exact lt_of_le_of_ne (not_lt.mp hless) (Ne.symm heq)
        · exact hfirst m hm

/-- A member behind all others is put behind them. -/
theorem insertMember_of_lt {key : String} {members : List (String × Value)} (h : ∀ m ∈ members, m.1 < key)
    (v : Value) : insertMember key v members = members ++ [(key, v)] := by
  induction members with
  | nil => rfl
  | cons n rest ih =>
      obtain ⟨k, w⟩ := n
      obtain ⟨hfirst, hrest⟩ := List.forall_mem_cons.mp h
      rw [insertMember, if_neg hfirst.ne', if_neg hfirst.asymm, ih hrest]
      rfl

/-! ### Values -/

/-- A value as it can be read, at most so many levels deep. -/
inductive Value.Tidy : Nat → Value → Prop
  | null (levels : Nat) : Tidy levels .null
  | bool (levels : Nat) (b : Bool) : Tidy levels (.bool b)
  | number (levels : Nat) {n : Number} (h : n.Fits) : Tidy levels (.number n)
  | text (levels : Nat) (t : String) : Tidy levels (.text t)
  | list {levels : Nat} {items : List Value} (h : ∀ v ∈ items, v.Tidy levels) : Tidy (levels + 1) (.list items)
  | record {levels : Nat} {members : List (String × Value)} (hordered : Ordered members)
      (h : ∀ m ∈ members, m.2.Tidy levels) : Tidy (levels + 1) (.record members)

namespace Reader

theorem yields_members {r : Reader Value} {P : Value → Prop} (h : Yields r P) :
    Yields (members r) fun members => Ordered members ∧ ∀ m ∈ members, P m.2 := by
  have hstep (state : Bool × List (String × Value)) (hstate : Ordered state.2 ∧ ∀ m ∈ state.2, P m.2) :
      Yields (memberStep r state) (Sum.elim (fun state => Ordered state.2 ∧ ∀ m ∈ state.2, P m.2)
        fun members => Ordered members ∧ ∀ m ∈ members, P m.2) := by
    refine .behind fun key => ?_
    cases key with
    | none => exact .pure hstate
    | some key =>
        refine .behind fun _ => h.bind fun v hv => .pure ⟨ordered_insertMember key v hstate.1, fun m hm => ?_⟩
        rcases eq_or_mem_of_mem_insertMember hm with rfl | hm
        · exact hv
        · exact hstate.2 m hm
  exact Yields.loop hstep ⟨List.Pairwise.nil, fun _ hm => nomatch hm⟩

theorem yields_value_of_inner {levels : Nat}
    (h : ∀ inner, levels = inner + 1 → Yields (value inner) (Value.Tidy inner)) :
    Yields (value levels) (Value.Tidy levels) := by
  rw [value.eq_def]
  refine .located (.behind fun first => ?_)
  split
  · exact .refuseNext _
  · exact .behind fun _ => .behind fun _ => .pure (.null levels)
  · exact .behind fun _ => .behind fun _ => .pure (.bool levels true)
  · exact .behind fun _ => .behind fun _ => .pure (.bool levels false)
  · exact .behind fun _ => (yields_number false).map fun _ hn => .number levels hn
  · exact .behind fun _ => (Yields.any text).map fun t _ => .text levels t
  · cases levels with
    | zero => exact .refuseNext _
    | succ inner =>
        exact .behind fun _ => ((h inner rfl).items.enclosed endList).map fun _ hitems => .list hitems
  · cases levels with
    | zero => exact .refuseNext _
    | succ inner =>
        exact .behind fun _ => ((yields_members (h inner rfl)).enclosed endRecord).map fun _ hmembers =>
          .record hmembers.1 hmembers.2
  · split_ifs
    · exact (yields_number true).map fun _ hn => .number levels hn
    · exact .refuseNext _

theorem yields_value (levels : Nat) : Yields (value levels) (Value.Tidy levels) := by
  induction levels with
  | zero => exact yields_value_of_inner fun _ h => nomatch h
  | succ inner ih =>
      refine yields_value_of_inner fun _ h => ?_
      cases h
      exact ih

end Reader

end ChainHead.Json
