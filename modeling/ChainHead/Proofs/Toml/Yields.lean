import ChainHead.Proofs.Toml.Tables

/-! What a reader of TOML can answer at all. `Yields r P` says that every answer of a reader, from any text, has a
property. It composes along the sequence of readers and along the rounds of a loop. Every document that is read is
tidy. -/

namespace ChainHead.Toml

namespace Reader

variable {α β : Type}

def Yields (r : Reader α) (P : α → Prop) : Prop :=
  ∀ s a s', r s = .ok (a, s') → P a

namespace Yields

variable {r : Reader α} {f : α → Reader β} {P : α → Prop} {Q : β → Prop}

theorem any (r : Reader α) : Yields r fun _ => True := fun _ _ _ _ => trivial

theorem imp {P' : α → Prop} (hr : Yields r P) (h : ∀ a, P a → P' a) : Yields r P' :=
  fun s a s' hread => h a (hr s a s' hread)

theorem refuse (flaw : Flaw) : Yields (refuse flaw) P := fun _ _ _ h => nomatch h

theorem mismatch (what : String) (expected : List String) : Yields (mismatch what expected) P := .refuse _

theorem mismatch_bind (what : String) (expected : List String) {f : α → Reader β} :
    Yields (Reader.mismatch what expected >>= f) Q := fun _ _ _ h => nomatch h

theorem refuse_bind (flaw : Flaw) {f : α → Reader β} : Yields (Reader.refuse flaw >>= f) Q := fun _ _ _ h => nomatch h

theorem pure {a : α} (h : P a) : Yields (pure a) P := by
  intro s a' s' hr
  cases hr
  exact h

theorem bind (hr : Yields r P) (hf : ∀ a, P a → Yields (f a) Q) : Yields (r >>= f) Q := by
  intro s b s' h
  obtain ⟨⟨a, s₁⟩, ha, hb⟩ := exists_of_bind_ok h
  exact hf a (hr s a s₁ ha) s₁ b s' hb

/-- What was read before does not matter. -/
theorem behind (hf : ∀ a, Yields (f a) Q) : Yields (r >>= f) Q :=
  (any r).bind fun a _ => hf a

theorem ite {c : Prop} [Decidable c] {r' : Reader α} (hr : c → Yields r P) (hr' : ¬c → Yields r' P) :
    Yields (if c then r else r') P := by
  split_ifs with hc
  · exact hr hc
  · exact hr' hc

theorem lift (span : Span) {result : Except Flaw α} (h : ∀ a, result = .ok a → P a) : Yields (lift span result) P := by
  cases result with
  | error flaw => exact fun _ _ _ h => nomatch h
  | ok a => exact .pure (h a rfl)

theorem spanned (hr : Yields r P) : Yields (spanned r) fun answer => P answer.2 :=
  behind fun _ => hr.bind fun _ ha => behind fun _ => .pure ha

/-- An invariant of the states of a loop holds until the step answers. -/
theorem loop {σ : Type} {step : σ → Reader (σ ⊕ α)} {Inv : σ → Prop}
    (hstep : ∀ s, Inv s → Yields (step s) (Sum.elim Inv P)) {s : σ} (hs : Inv s) : Yields (loop step s) P := by
  have hiterate (fuel : List Char) : ∀ s, Inv s → Yields (iterate step fuel s) P := by
    induction fuel with
    | nil => exact fun _ _ => .refuse _
    | cons _ fuel ih =>
        intro s hs
        refine (hstep s hs).bind fun answer hanswer => ?_
        cases answer with
        | inl s' => exact ih s' hanswer
        | inr a => exact .pure hanswer
  exact behind fun _ => hiterate _ s hs

end Yields

/-! ### Values -/

/-- A value whose place is to come is tidy at any place. -/
def TidyAnywhere (make : Span → Node) : Prop := ∀ span, (make span).Tidy

theorem yields_integer (n : Int) : Yields (integer n) TidyAnywhere := by
  refine .ite (fun _ => .mismatch_bind _ _) fun hsize => .pure fun span => ?_
  rw [not_or, Int.not_lt, Int.not_le] at hsize
  exact .integer span hsize.1 hsize.2

theorem yields_real (negative : Bool) (significand : List Char) (exponent : Int) :
    Yields (real negative significand exponent) TidyAnywhere :=
  .ite (fun _ => .mismatch_bind _ _) fun _ => .pure fun span => .real span _

theorem yields_unsigned (negative : Bool) : Yields (unsigned negative) TidyAnywhere := by
  refine .behind fun infinite => .ite (fun _ => .pure fun span => .real span _) fun _ => ?_
  refine .behind fun noNumber => .ite (fun _ => .pure fun span => .real span _) fun _ => ?_
  refine .behind fun whole => .ite (fun _ => .refuse_bind _) fun _ => ?_
  refine .behind fun pointed => .ite (fun _ => ?_) fun _ => ?_
  · exact .behind fun _ => .behind fun _ => yields_real _ _ _
  · refine .behind fun exponent => ?_
    cases exponent with
    | some exponent => exact yields_real _ _ _
    | none => exact yields_integer _

theorem yields_numeric : Yields numeric TidyAnywhere := by
  refine .behind fun dated => .ite (fun _ => .behind fun _ => .pure .moment) fun _ => ?_
  refine .behind fun timed => .ite (fun _ => .behind fun _ => .pure .moment) fun _ => ?_
  have hmarked (radix : Nat) : Yields (marked radix) TidyAnywhere :=
    .behind fun _ => .behind fun _ => yields_integer _
  refine .behind fun hex => .ite (fun _ => hmarked 16) fun _ => ?_
  refine .behind fun octal => .ite (fun _ => hmarked 8) fun _ => ?_
  refine .behind fun binary => .ite (fun _ => hmarked 2) fun _ => ?_
  exact .behind fun negative => yields_unsigned negative

theorem yields_unplaced : Yields unplaced TidyAnywhere := by
  refine .behind fun first => ?_
  split
  · exact .behind fun value => .pure fun span => .text span value
  · exact .behind fun value => .pure fun span => .text span value
  · exact .behind fun whole => .ite (fun _ => .pure fun span => .flag span true) fun _ => .mismatch _ _
  · exact .behind fun whole => .ite (fun _ => .pure fun span => .flag span false) fun _ => .mismatch _ _
  · refine .ite (fun _ => yields_numeric) fun _ => .ite (fun _ => .refuse _) fun _ => ?_
    exact .ite (fun _ => .mismatch _ _) fun _ => .ite (fun _ => .mismatch _ _) fun _ => .mismatch _ _
  · exact .mismatch _ _

theorem yields_scalar : Yields scalar Node.Tidy :=
  yields_unplaced.spanned.bind fun answer h => .pure (h answer.1)

theorem yields_list {value : Reader Node} (hvalue : Yields value Node.Tidy) : Yields (list value) Node.Tidy := by
  have hstep (done : List Node) (hdone : ∀ item ∈ done, item.Tidy) :
      Yields (itemStep value done) (Sum.elim (fun done => ∀ item ∈ done, item.Tidy) fun items =>
        ∀ item ∈ items, item.Tidy) := by
    have hreversed {done : List Node} (hdone : ∀ item ∈ done, item.Tidy) : ∀ item ∈ done.reverse, item.Tidy :=
      fun item hitem => hdone item (List.mem_reverse.mp hitem)
    refine .behind fun _ => .behind fun closed => .ite (fun _ => .pure (hreversed hdone)) fun _ => ?_
    refine hvalue.bind fun item hitem => .behind fun _ => ?_
    have hmore : ∀ other ∈ item :: done, other.Tidy := List.forall_mem_cons.mpr ⟨hitem, hdone⟩
    refine .behind fun comma => .ite (fun _ => .pure hmore) fun _ => ?_
    exact .behind fun closed => .ite (fun _ => .pure (hreversed hmore)) fun _ => .mismatch _ _
  have hitems := Yields.loop hstep (List.forall_mem_nil _)
  exact (Yields.behind fun _ => hitems).spanned.bind fun answer h => .pure (.list answer.1 h)

theorem yields_member {limit : Nat} {value : Reader Node} (hvalue : Yields value Node.Tidy) :
    Yields (member limit value) fun answer => answer.2.2.Tidy :=
  .behind fun _ => .behind fun _ => .ite (fun _ => .refuse_bind _) fun _ => .behind fun _ =>
    hvalue.bind fun _ hitem => .pure hitem

theorem yields_braces {limit : Nat} {value : Reader Node} (hvalue : Yields value Node.Tidy) :
    Yields (braces limit value) Node.Tidy := by
  have hstep (done : Entries) (hdone : TidyEntries done) :
      Yields (memberStep limit value done) (Sum.elim TidyEntries TidyEntries) := by
    refine (yields_member hvalue).spanned.bind fun answer hitem => .behind fun _ => ?_
    refine (Yields.lift (P := TidyEntries) _ fun more hmore => ?_).bind fun more hmore => ?_
    · exact keeps_addDotted hitem none _ _ _ _ _ hdone hmore
    · refine .behind fun comma => .ite (fun _ => .pure hmore) fun _ => ?_
      exact .behind fun closed => .ite (fun _ => .pure hmore) fun _ => .mismatch _ _
  have hentries := Yields.loop hstep .nil
  have hinside : Yields (do
      eat 1
      blanks
      if ← accept ['\x7d'] then return []
      loop (memberStep limit value) []) TidyEntries :=
    .behind fun _ => .behind fun _ => .behind fun closed => .ite (fun _ => .pure .nil) fun _ => hentries
  exact hinside.spanned.bind fun answer h => .pure (h.table _ _)

theorem yields_value (limit levels : Nat) : Yields (value limit levels) Node.Tidy := by
  induction levels with
  | zero => exact yields_scalar
  | succ levels ih =>
      refine .behind fun first => ?_
      split
      · exact yields_list ih
      · exact yields_braces ih
      · exact yields_scalar

/-! ### Documents -/

theorem yields_statement (limit : Nat) {d : Draft} (hd : d.Tidy) : Yields (statement limit d) Draft.Tidy := by
  refine .behind fun opens => .ite (fun _ => ?_) fun _ => ?_
  · exact .behind fun _ => .behind fun _ => .lift _ fun _ h => hd.openSection h
  · refine (yields_member (yields_value _ _)).spanned.bind fun answer hitem => ?_
    exact .behind fun _ => .lift _ fun _ h => hd.add hitem h

theorem yields_lineStep (limit : Nat) {d : Draft} (hd : d.Tidy) :
    Yields (lineStep limit d) (Sum.elim Draft.Tidy Draft.Tidy) := by
  refine .behind fun _ => .behind fun first => ?_
  split
  · exact .pure hd
  · exact .behind fun _ => .behind fun _ => .pure hd
  · refine .ite (fun _ => ?_) fun _ => ?_
    · exact .behind fun ended => .ite (fun _ => .pure hd) fun _ => .refuse _
    · exact (yields_statement limit hd).bind fun _ h => .pure h

theorem yields_document (limit : Nat) : Yields (document limit) fun d => TidyEntries d.entries := by
  refine .behind fun _ => ?_
  refine (Yields.loop (fun d hd => yields_lineStep limit hd) ⟨.nil, .nil⟩).bind fun d hd => ?_
  exact (Yields.lift (P := TidyEntries) _ fun _ h => hd.close h).bind fun _ h => .pure h

end Reader

/-- The members of a document that is read are tidy. -/
theorem Document.tidy_of_readWithin {limit : Nat} {text : String} {d : Document}
    (h : readWithin limit text = .ok d) : TidyEntries d.entries := by
  obtain ⟨⟨d', s⟩, hread, hd⟩ := exists_of_bind_ok h
  cases hd
  exact Reader.yields_document limit _ _ _ hread

end ChainHead.Toml
