import ChainHead.Proofs.Toml.Depth

/-! A document that is nested less deep than the limit is read. Wherever a reader with a larger limit answers, one with
a smaller limit does so too, if the answer is not as deep as that. This goes from the answer backwards: what is read
first is part of the answer, and so it is not deeper. -/

namespace ChainHead.Toml

namespace Reader

variable {α β σ : Type}

/-- One reader answers what another one answers, wherever the answer has a property. -/
def Covers (r r' : Reader α) (P : α → Prop) : Prop :=
  ∀ s a s', r' s = .ok (a, s') → P a → r s = .ok (a, s')

namespace Covers

variable {r r' : Reader α} {f f' : α → Reader β} {P R : α → Prop} {Q : β → Prop}

theorem refl (r : Reader α) : Covers r r P := fun _ _ _ h _ => h

/-- What comes behind has the property only if the first answer has one. -/
theorem bind (hyields : Yields r' R) (hr : Covers r r' P) (hback : ∀ a, R a → Yields (f' a) fun b => Q b → P a)
    (hf : ∀ a, R a → P a → Covers (f a) (f' a) Q) : Covers (r >>= f) (r' >>= f') Q := by
  intro s b s' h hb
  obtain ⟨⟨a, middle⟩, ha, hfa⟩ := exists_of_bind_ok h
  have hR := hyields _ _ _ ha
  have hP := hback a hR _ _ _ hfa hb
  rw [bind_ok (hr _ _ _ ha hP)]
  exact hf a hR hP _ _ _ hfa hb

theorem behind (hf : ∀ a, Covers (f a) (f' a) Q) : Covers (r >>= f) (r >>= f') Q := by
  intro s b s' h hb
  obtain ⟨⟨a, middle⟩, ha, hfa⟩ := exists_of_bind_ok h
  rw [bind_ok ha]
  exact hf a _ _ _ hfa hb

/-- The same comes behind both. -/
theorem before (hr : Covers r r' P) (hback : ∀ a, Yields (f a) fun b => Q b → P a) :
    Covers (r >>= f) (r' >>= f) Q :=
  .bind (.any r') hr (fun a _ => hback a) fun _ _ _ => .refl _

theorem ite {c : Prop} [Decidable c] {q q' : Reader α} (hr : Covers r r' P) (hq : Covers q q' P) :
    Covers (if c then r else q) (if c then r' else q') P := by
  split_ifs
  · exact hr
  · exact hq

theorem spanned (hr : Covers r r' P) : Covers (spanned r) (spanned r') fun answer => P answer.2 :=
  behind fun _ => hr.before fun _ => .behind fun _ => .pure fun h => h

/-- Each state of a loop has a property if the next one has it, and the last one has it if the answer is as asked. -/
theorem loop {step step' : σ → Reader (σ ⊕ β)} {I S : σ → Prop}
    (hyields : ∀ a, I a → Yields (step' a) (Sum.elim (fun next => I next ∧ (S next → S a)) fun b => Q b → S a))
    (hstep : ∀ a, I a → Covers (step a) (step' a) (Sum.elim S Q)) {a : σ} (ha : I a) :
    Covers (loop step a) (loop step' a) Q := by
  have hiterate (fuel : List Char) : ∀ a, I a → ∀ s b s', iterate step' fuel a s = .ok (b, s') → Q b →
      iterate step fuel a s = .ok (b, s') ∧ S a := by
    induction fuel with
    | nil => exact fun _ _ _ _ _ h => nomatch h
    | cons _ fuel ih =>
        intro a ha s b s' h hb
        obtain ⟨⟨answer, middle⟩, hanswer, hrest⟩ := exists_of_bind_ok h
        have hnext := hyields a ha _ _ _ hanswer
        cases answer with
        | inl next =>
            obtain ⟨hiter, hS⟩ := ih next hnext.1 _ _ _ hrest hb
            refine ⟨?_, hnext.2 hS⟩
            rw [iterate, bind_ok (hstep a ha _ _ _ hanswer hS)]
            exact hiter
        | inr last =>
            cases hrest
            refine ⟨?_, hnext hb⟩
            rw [iterate, bind_ok (hstep a ha _ _ _ hanswer hb)]
            rfl
  exact behind fun _ => fun s b s' h hb => (hiterate _ a ha s b s' h hb).1

end Covers

variable {m n k : Nat} {inner inner' : Reader Node}

theorem covers_keys : Covers (keys m) (keys n) fun answer => answer.1.length + 1 < m := by
  refine .behind fun path => ?_
  dsimp only
  split_ifs with hm hn hn
  · exact .refl _
  · rintro s a s' h ha
    cases h
    omega
  · exact fun _ _ _ h => nomatch h
  · exact .refl _

theorem covers_member {P : Node → Prop} (hvalue : Covers inner inner' P) :
    Covers (member m inner) (member n inner') fun answer => answer.1.length + 1 < m ∧ P answer.2.2 := by
  refine .bind (.any _) covers_keys (fun path _ => ?_) fun path _ _ => ?_
  · refine .behind fun _ => .ite (fun _ => .refuse_bind _) fun _ => .behind fun _ => .behind fun _ => ?_
    exact .pure fun h => h.1
  · refine .behind fun _ => .ite (.refl _) (.behind fun _ => hvalue.before fun _ => ?_)
    exact .pure fun h => h.2

theorem itemsDepth_reverse (items : List Node) : itemsDepth items.reverse = itemsDepth items := by
  induction items with
  | nil => rfl
  | cons n rest ih => rw [List.reverse_cons, itemsDepth_append, itemsDepth_singleton, ih, itemsDepth, max_comm]

theorem covers_list (hvalue : Covers inner inner' fun n => n.depth ≤ k) :
    Covers (list inner) (list inner') fun n => n.depth ≤ k + 1 := by
  have hyields (done : List Node) : Yields (itemStep inner' done)
      (Sum.elim (fun next => True ∧ (itemsDepth next ≤ k → itemsDepth done ≤ k)) fun items =>
        itemsDepth items ≤ k → itemsDepth done ≤ k) := by
    refine .behind fun _ => .behind fun closed => .ite (fun _ => .pure fun h => ?_) fun _ => ?_
    · rwa [itemsDepth_reverse] at h
    refine .behind fun item => .behind fun _ => .behind fun comma => ?_
    refine .ite (fun _ => .pure ⟨trivial, fun h => ?_⟩) fun _ => ?_
    · rw [itemsDepth] at h
      omega
    refine .behind fun closed => .ite (fun _ => .pure fun h => ?_) fun _ => .mismatch _ _
    rw [itemsDepth_reverse, itemsDepth] at h
    omega
  have hstep (done : List Node) : Covers (itemStep inner done) (itemStep inner' done)
      (Sum.elim (fun done => itemsDepth done ≤ k) fun items => itemsDepth items ≤ k) := by
    refine .behind fun _ => .behind fun closed => .ite (.refl _) (hvalue.before fun item => .behind fun _ => ?_)
    refine .behind fun comma => .ite (fun _ => .pure fun h => ?_) fun _ => ?_
    · rw [Sum.elim_inl, itemsDepth] at h
      omega
    refine .behind fun closed => .ite (fun _ => .pure fun h => ?_) fun _ => .mismatch _ _
    rw [Sum.elim_inr, itemsDepth_reverse, itemsDepth] at h
    omega
  have hitems : Covers (loop (itemStep inner) []) (loop (itemStep inner') []) fun items => itemsDepth items ≤ k :=
    .loop (I := fun _ => True) (fun done _ => hyields done) (fun done _ => hstep done) trivial
  refine (Covers.behind fun _ => hitems).spanned.before fun answer => .pure fun h => ?_
  exact Nat.le_of_succ_le_succ h

theorem covers_braces (hk : k + 1 < m) (hvalue : Covers inner inner' fun n => n.depth ≤ k) :
    Covers (braces m inner) (braces n inner') fun n => n.depth ≤ k + 1 := by
  have hadded (done : Entries) (answer : Span × List Key × Key × Node) :
      let Deep more := entriesDepth done ≤ entriesDepth more ∧
        answer.2.2.2.depth + answer.2.1.length ≤ entriesDepth more
      Yields (do
        let more ← lift answer.1 (addDotted none answer.2.1 answer.2.2.1 answer.2.2.2 .braces done)
        if ← accept [','] then return .inl more
        if ← accept ['\x7d'] then return .inr more
        mismatch "inline table" ["`\x7d`"]) (Sum.elim Deep Deep) := by
    intro Deep
    have hadd := deepens_addDotted none answer.2.1 answer.2.2.1 answer.2.2.2
    refine (Yields.lift (P := Deep) _ fun more hmore => ⟨hadd.kept _ _ _ hmore, hadd.reached _ _ _ hmore⟩).bind
      fun more hmore => ?_
    exact .behind fun comma => .ite (fun _ => .pure hmore) fun _ => .behind fun closed =>
      .ite (fun _ => .pure hmore) fun _ => .mismatch _ _
  have hyields (done : Entries) : Yields (memberStep n inner' done)
      (Sum.elim (fun next => True ∧ (entriesDepth next ≤ k → entriesDepth done ≤ k)) fun entries =>
        entriesDepth entries ≤ k → entriesDepth done ≤ k) := by
    refine .behind fun answer => .behind fun _ => (hadded done answer).imp fun next h => ?_
    cases next with
    | inl next => exact ⟨trivial, h.1.trans⟩
    | inr entries => exact h.1.trans
  have hstep (done : Entries) : Covers (memberStep m inner done) (memberStep n inner' done)
      (Sum.elim (fun entries => entriesDepth entries ≤ k) fun entries => entriesDepth entries ≤ k) := by
    refine (covers_member hvalue).spanned.before fun answer => .behind fun _ => ?_
    refine (hadded done answer).imp fun next h => ?_
    cases next with
    | inl next =>
        intro hnext
        rw [Sum.elim_inl] at h hnext
        omega
    | inr entries =>
        intro hentries
        rw [Sum.elim_inr] at h hentries
        omega
  have hentries : Covers
      (do
        eat 1
        blanks
        if ← accept ['\x7d'] then return []
        loop (memberStep m inner) [])
      (do
        eat 1
        blanks
        if ← accept ['\x7d'] then return []
        loop (memberStep n inner') []) fun entries => entriesDepth entries ≤ k := by
    refine .behind fun _ => .behind fun _ => .behind fun _ => .ite (.refl _) ?_
    exact .loop (I := fun _ => True) (fun done _ => hyields done) (fun done _ => hstep done) trivial
  exact hentries.spanned.before fun answer => .pure Nat.le_of_succ_le_succ

/-- A value without levels is no list and no table. -/
theorem covers_scalar (levels : Nat) : Covers scalar (value n levels) fun n => n.depth ≤ 0 := by
  cases levels with
  | zero => exact .refl _
  | succ levels =>
      intro s a s' h ha
      have hlist : Yields (list (value n levels)) fun n => 0 < n.depth :=
        .behind fun answer => .pure (Nat.succ_pos _)
      have hbraces : Yields (braces n (value n levels)) fun n => 0 < n.depth :=
        .behind fun answer => .pure (Nat.succ_pos _)
      rw [value, bind_ok (peek_eq s)] at h
      cases hfirst : s.rest.head? with
      | none =>
          rw [hfirst] at h
          exact h
      | some c =>
          rw [hfirst] at h
          by_cases hopens : c = '['
          · cases hopens
            exact absurd (hlist _ _ _ h) (Nat.not_lt.mpr ha)
          by_cases hbrace : c = '\x7b'
          · cases hbrace
            exact absurd (hbraces _ _ _ h) (Nat.not_lt.mpr ha)
          simpa [hopens, hbrace] using h

theorem covers_value {levels levels' : Nat} (hlevels : levels ≤ levels') (hm : levels < m) :
    Covers (value m levels) (value n levels') fun n => n.depth ≤ levels := by
  induction levels generalizing levels' with
  | zero => exact covers_scalar levels'
  | succ levels ih =>
      cases levels' with
      | zero => exact absurd hlevels (Nat.not_succ_le_zero levels)
      | succ levels' =>
          have hinner := ih (Nat.le_of_succ_le_succ hlevels) (Nat.lt_of_succ_lt hm)
          refine .behind fun first => ?_
          split
          · exact covers_list hinner
          · exact covers_braces hm hinner
          · exact .refl _

theorem covers_header : Covers (header m) (header n) fun answer => answer.2.1.length + 1 < m := by
  refine .behind fun many => covers_keys.before fun path => .behind fun closed => .ite (fun _ => ?_) fun _ => ?_
  · exact .ite (fun _ => .mismatch_bind _ _) fun _ => .mismatch_bind _ _
  · exact .pure fun h => h

/-- No statement makes a draft less deep, and each makes it as deep as its own keys and values are. -/
theorem covers_statement (hmn : m ≤ n) {d : Draft} (hd : d.Tidy) :
    Covers (statement m d) (statement n d) fun next => next.depth + 1 < m := by
  refine .behind fun opens => .ite ?_ ?_
  · refine (Covers.behind fun _ => covers_header).spanned.before fun answer => ?_
    obtain ⟨span, many, path, key⟩ := answer
    refine .behind fun _ => .lift _ fun next hnext hm => ?_
    have hlength := (Draft.depth_le_openSection hd hnext).2
    dsimp only
    omega
  · have hvalue : Covers (value m (m - 1)) (value n (n - 1)) fun item => item.depth + 1 < m := by
      intro s item s' h hitem
      exact covers_value (Nat.sub_le_sub_right hmn 1) (by omega) s item s' h (by omega)
    refine (covers_member hvalue).spanned.before fun answer => ?_
    obtain ⟨span, path, key, item⟩ := answer
    refine .behind fun _ => .lift _ fun next hnext hm => ?_
    have hdepth := (Draft.depth_le_add hnext).2
    dsimp only
    omega

theorem yields_statement_depth {d : Draft} (hd : d.Tidy) : Yields (statement n d) fun next => d.depth ≤ next.depth := by
  refine .behind fun opens => .ite (fun _ => ?_) fun _ => ?_
  · exact .behind fun answer => .behind fun _ => .lift _ fun next hnext => (Draft.depth_le_openSection hd hnext).1
  · exact .behind fun answer => .behind fun _ => .lift _ fun next hnext => (Draft.depth_le_add hnext).1

theorem covers_lineStep (hmn : m ≤ n) {d : Draft} (hd : d.Tidy) : Covers (lineStep m d) (lineStep n d)
    (Sum.elim (fun next => next.depth + 1 < m) fun next => next.depth + 1 < m) := by
  refine .behind fun _ => .behind fun first => ?_
  split
  · exact .refl _
  · exact .refl _
  · exact .ite (.refl _) ((covers_statement hmn hd).before fun next => .pure fun h => h)

theorem yields_lineStep_depth {d : Draft} (hd : d.Tidy) : Yields (lineStep n d)
    (Sum.elim (fun next => d.depth ≤ next.depth) fun next => d.depth ≤ next.depth) := by
  refine .behind fun _ => .behind fun first => ?_
  split
  · exact .pure (Nat.le_refl _)
  · exact .behind fun _ => .behind fun _ => .pure (Nat.le_refl _)
  · refine .ite (fun _ => .behind fun _ => .ite (fun _ => .pure (Nat.le_refl _)) fun _ => .refuse _) fun _ => ?_
    exact (yields_statement_depth hd).bind fun next h => .pure h

theorem covers_document (hmn : m ≤ n) : Covers (document m) (document n) fun d => d.depth < m := by
  have hyields (d : Draft) (hd : d.Tidy) : Yields (lineStep n d)
      (Sum.elim (fun next => next.Tidy ∧ (next.depth + 1 < m → d.depth + 1 < m)) fun next =>
        next.depth + 1 < m → d.depth + 1 < m) := by
    intro s next s' h
    have htidy := yields_lineStep n hd _ _ _ h
    have hdepth := yields_lineStep_depth hd _ _ _ h
    cases next with
    | inl next =>
        refine ⟨htidy, fun hnext => ?_⟩
        rw [Sum.elim_inl] at hdepth
        omega
    | inr next =>
        intro hnext
        rw [Sum.elim_inr] at hdepth
        omega
  refine .behind fun _ => ?_
  refine (Covers.loop hyields (fun d hd => covers_lineStep hmn hd) ⟨.nil, .nil⟩).before fun d => ?_
  refine (Yields.lift (P := fun closed => d.depth ≤ entriesDepth closed) _ fun _ h => Draft.depth_le_close h).bind
    fun closed hclosed => .pure fun h => ?_
  exact Nat.lt_of_le_of_lt (Nat.succ_le_succ hclosed) h

end Reader

/-- A document that is nested less deep than the limit is read. -/
theorem Document.Of.read_of_depth {text : String} {d : Document} (h : Of text d)
    (hdepth : d.depth < Reader.levelLimit) : read text = .ok d := by
  obtain ⟨limit, h⟩ := h
  rcases Nat.le_total limit Reader.levelLimit with hle | hle
  · rcases readWithin_of_le hle text with heq | ⟨fault, hfault, -⟩
    · exact heq.symm.trans h
    · cases h.symm.trans hfault
  · obtain ⟨⟨answer, s⟩, hrun, heq⟩ := exists_of_bind_ok h
    cases heq
    have hrun' := Reader.covers_document hle _ _ _ hrun hdepth
    rw [read, readWithin, StateT.run, hrun']
    rfl

end ChainHead.Toml
