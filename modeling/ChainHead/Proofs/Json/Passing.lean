import ChainHead.Proofs.Json.Magnitudes

/-! Passing over a value takes every value of the grammar, of any depth, and nothing but its bytes. The state of the
loop is where the reader stands among the frames that are open, so a value is followed on its own from the frames around
it: the loop comes behind the value with the same frames. -/

namespace ChainHead.Json.Reader

/-- The loop comes from a state, round by round, to an answer of a round. -/
def Leads {σ β : Type} (step : σ → Reader (σ ⊕ β)) (s : σ) (c : Cursor) (answer : σ ⊕ β) (c' : Cursor) : Prop :=
  ∃ s₁ c₁, Path step s c s₁ c₁ ∧ step s₁ c₁ = .done answer c' ∧ c'.rest.length < c₁.rest.length

section

variable {σ β : Type} {step : σ → Reader (σ ⊕ β)} {s s' : σ} {c c' c'' : Cursor} {answer : σ ⊕ β}

theorem leads_of_step (h : step s c = .done answer c') (hless : c'.rest.length < c.rest.length) :
    Leads step s c answer c' :=
  ⟨s, c, .here s c, h, hless⟩

theorem Leads.trans (h : Leads step s c (.inl s') c') (h' : Leads step s' c' answer c'') :
    Leads step s c answer c'' := by
  obtain ⟨s₁, c₁, hpath, hstep, hless⟩ := h
  obtain ⟨s₂, c₂, hpath', hlast⟩ := h'
  exact ⟨s₂, c₂, hpath.trans (.on hstep hless hpath'), hlast⟩

/-- A round that answers like the first round of another path leads where that path leads. -/
theorem Leads.of_step_eq (h : Leads step s' c' answer c'') (hstep : step s c = step s' c')
    (hle : c'.rest.length ≤ c.rest.length) : Leads step s c answer c'' := by
  obtain ⟨s₁, c₁, hpath, hlast, hless⟩ := h
  cases hpath with
  | here s' c' => exact ⟨s, c, .here s c, hstep.trans hlast, Nat.lt_of_lt_of_le hless hle⟩
  | on hfirst hshort more =>
      exact ⟨s₁, c₁, .on (hstep.trans hfirst) (Nat.lt_of_lt_of_le hshort hle) more, hlast, hless⟩

end

/-! ### Values -/

/-- A text is passed over as a value, whatever frames are open. -/
def Passes (text : List UInt8) : Prop :=
  ∀ frames rest p, endsItem rest = true →
    ∃ q, Leads skipStep (.value frames) ⟨text ++ rest, p⟩ (behind frames) ⟨rest, q⟩

theorem skipsBlanks_skipValueStep (frames : List Frame) : SkipsBlanks (skipValueStep frames) :=
  skipsBlanks_ahead _

theorem Passes.blanks_append {bytes text : List UInt8} (hbytes : Blanks bytes) (h : Passes text) :
    Passes (bytes ++ text) := by
  intro frames rest p hrest
  obtain ⟨q, h⟩ := h frames rest (p.behind bytes) hrest
  refine ⟨q, h.of_step_eq ?_ ?_⟩
  · rw [List.append_assoc]
    exact skipsBlanks_skipValueStep frames bytes _ p hbytes
  · simp

/-- A value that takes one round is passed over. -/
theorem passes_of_takesItem {text : List UInt8} (hne : text ≠ [])
    (h : ∀ frames, TakesItem (skipValueStep frames) text (behind frames)) : Passes text := by
  intro frames rest p hrest
  obtain ⟨q, h⟩ := h frames rest p hrest
  refine ⟨q, leads_of_step h ?_⟩
  rw [List.length_append]
  exact Nat.lt_add_of_pos_left (List.length_pos_iff.mpr hne)

/-! ### Lists and records -/

/-- The front of an entry is passed over as what stands before a value in a frame, and the entry does not begin like the
end of the frame. -/
structure FitsFrame (frame : Frame) (e : Entry) : Prop where
  takes_front : Takes (skipToValue frame) e.front ()
  opens : ∃ bytes b more, Blanks bytes ∧ isBlank b = false ∧ b ≠ Frame.closing frame ∧ e.text = bytes ++ b :: more

/-- The round that passes over what stands before a value, and then over the value or its opening. -/
def entryStep (frame : Frame) (outer : List Frame) : Reader (SkipState ⊕ Unit) := do
  skipToValue frame
  skipValueStep (frame :: outer)

theorem skipsBlanks_entryStep (frame : Frame) (outer : List Frame) : SkipsBlanks (entryStep frame outer) := by
  cases frame with
  | list => exact skipsBlanks_skipValueStep _
  | record =>
      intro bytes rest p h
      have hkey : skipKey ⟨bytes ++ rest, p⟩ = skipKey ⟨rest, p.behind bytes⟩ := skipsBlanks_ahead _ bytes rest p h
      change (skipKey >>= fun _ => skipValueStep (.record :: outer)) _ =
        (skipKey >>= fun _ => skipValueStep (.record :: outer)) _
      rw [bind_apply, bind_apply, hkey]

section

variable {frame : Frame} {outer : List Frame} {e : Entry} {pre : List UInt8}

theorem skipStep_inside_eq (frame : Frame) (outer : List Frame) (behindValue : Bool) :
    skipStep (.inside frame outer behindValue) = (do
      match ← ahead with
      | none => refuseNext (match frame with | .list => .endInList | .record => .endInRecord)
      | some b =>
        if b = Frame.closing frame then do
          eat
          pure (behind outer)
        else if behindValue then
          if b = 0x2c then do
            eat
            entryStep frame outer
          else
            refuseNext (match frame with | .list => .noListSeparator | .record => .noRecordSeparator)
        else entryStep frame outer) := by
  simp only [skipStep, skipInside, bind_assoc]
  congr 1
  funext first
  cases first with
  | none => rfl
  | some b =>
      simp only
      split_ifs
      · cases outer <;> rfl
      · simp only [bind_assoc, pure_bind, entryStep]
      · rfl
      · simp only [bind_assoc, pure_bind, entryStep]

/-- Behind the opening of a frame the first entry is next. -/
theorem skipStep_first (h : FitsFrame frame e) (hpre : Blanks pre) (more : List UInt8) (p : Position) :
    skipStep (.inside frame outer false) ⟨pre ++ (e.text ++ more), p⟩ =
      entryStep frame outer ⟨e.text ++ more, p.behind pre⟩ := by
  obtain ⟨bytes, b, tail, hbytes, hblank, hclosing, htext⟩ := h.opens
  rw [skipStep_inside_eq, skipsBlanks_ahead _ pre _ p hpre, htext, List.append_assoc,
    skipsBlanks_ahead _ bytes _ _ hbytes, skipsBlanks_entryStep frame outer bytes _ _ hbytes]
  refine ahead_bind_congr hblank ?_ _ _
  simp only
  rw [if_neg hclosing]
  rfl

/-- Behind a value a comma and another entry are next. -/
theorem skipStep_next (hpre : Blanks pre) (more : List UInt8) (p : Position) :
    skipStep (.inside frame outer true) ⟨pre ++ 0x2c :: more, p⟩ =
      entryStep frame outer ⟨more, (p.behind pre).after 0x2c⟩ := by
  have hclosing : (0x2c : UInt8) ≠ Frame.closing frame := by cases frame <;> decide
  rw [skipStep_inside_eq, skipsBlanks_ahead _ pre _ p hpre]
  refine (ahead_bind_apply rfl _ _ _).trans ?_
  simp only
  rw [if_neg hclosing]
  rfl

theorem skipStep_end (behindValue : Bool) (hpre : Blanks pre) (rest : List UInt8) (p : Position) :
    skipStep (.inside frame outer behindValue) ⟨pre ++ Frame.closing frame :: rest, p⟩ =
      .done (behind outer) ⟨rest, (p.behind pre).after (Frame.closing frame)⟩ := by
  have hblank : isBlank (Frame.closing frame) = false := by cases frame <;> rfl
  rw [skipStep_inside_eq, skipsBlanks_ahead _ pre _ p hpre]
  refine (ahead_bind_congr hblank (r := eat >>= fun _ => pure (behind outer)) ?_ rest _).trans rfl
  exact if_pos rfl

end

/-- The entries of a frame are passed over one after the other, up to the end of the frame. -/
theorem leads_inside {frame : Frame} {entries : List Entry} (hfits : ∀ e ∈ entries, FitsFrame frame e)
    (hpasses : ∀ e ∈ entries, Passes e.item.value) (outer : List Frame) (behindValue : Bool) {pre : List UInt8}
    (hpre : Blanks pre) (rest : List UInt8) (p : Position) :
    ∃ q, Leads skipStep (.inside frame outer behindValue)
      ⟨pre ++ (follow behindValue (entries.map Entry.text) ++ Frame.closing frame :: rest), p⟩ (behind outer)
      ⟨rest, q⟩ := by
  induction entries generalizing behindValue pre p with
  | nil =>
      have hnone : follow behindValue (([] : List Entry).map Entry.text) = [] := by cases behindValue <;> rfl
      rw [hnone]
      refine ⟨_, leads_of_step (skipStep_end behindValue hpre rest p) ?_⟩
      simp only [List.nil_append, List.length_append, List.length_cons]
      omega
  | cons e entries ih =>
      obtain ⟨he, hfits⟩ := List.forall_mem_cons.mp hfits
      obtain ⟨hvalue, hpasses⟩ := List.forall_mem_cons.mp hpasses
      have hclosing : Frame.closing frame = 0x5d ∨ Frame.closing frame = 0x7d := by cases frame <;> decide
      obtain ⟨more, hmore⟩ : ∃ more, follow true (entries.map Entry.text) ++ Frame.closing frame :: rest = more :=
        ⟨_, rfl⟩
      have hends : endsItem (e.item.behind ++ more) = true :=
        endsItem_blanks_append e.item.blanks_behind (hmore ▸ endsItem_follow_append _ hclosing rest)
      obtain ⟨q, hround⟩ : ∃ q, skipStep (.inside frame outer behindValue)
          ⟨pre ++ (follow behindValue ((e :: entries).map Entry.text) ++ Frame.closing frame :: rest), p⟩ =
            entryStep frame outer ⟨e.text ++ more, q⟩ := by
        rw [List.map_cons, follow_cons, List.append_assoc, List.append_assoc, hmore]
        cases behindValue with
        | true => exact ⟨_, skipStep_next hpre (e.text ++ more) p⟩
        | false => exact ⟨_, skipStep_first he hpre more p⟩
      obtain ⟨q₁, hfront⟩ := he.takes_front (e.item.text ++ more) q
      obtain ⟨q₂, hleads⟩ := Passes.blanks_append e.item.blanks_before hvalue (frame :: outer) _ q₁ hends
      obtain ⟨q₃, hrest⟩ := ih hfits hpasses true e.item.blanks_behind q₂
      rw [hmore] at hrest
      -- the round that opens the entry is the first one over its value
      have hvalueRound : entryStep frame outer ⟨e.text ++ more, q⟩ =
          skipStep (.value (frame :: outer)) ⟨e.item.before ++ e.item.value ++ (e.item.behind ++ more), q₁⟩ := by
        rw [Entry.text, List.append_assoc]
        refine (bind_done hfront).trans ?_
        simp only [Item.text, List.append_assoc]
        rfl
      refine ⟨q₃, (hleads.of_step_eq (hround.trans hvalueRound) ?_).trans hrest⟩
      simp only [List.map_cons, follow_cons, List.append_assoc, hmore, Entry.text, Item.text, List.length_append]
      omega

/-- A frame is passed over with its entries. -/
theorem passes_frame (frame : Frame) {opening : UInt8}
    (hopening : ∀ outer more p, skipStep (.value outer) ⟨opening :: more, p⟩ =
      .done (.inl (.inside frame outer false)) ⟨more, p.after opening⟩)
    {entries : List Entry} (hfits : ∀ e ∈ entries, FitsFrame frame e) (hpasses : ∀ e ∈ entries, Passes e.item.value)
    {gap : List UInt8} (hgap : Blanks gap) :
    Passes (opening :: (gap ++ (joined (entries.map Entry.text) ++ [Frame.closing frame]))) := by
  intro outer rest p _
  obtain ⟨q, hinside⟩ := leads_inside hfits hpasses outer false hgap rest (p.after opening)
  have htext : opening :: (gap ++ (joined (entries.map Entry.text) ++ [Frame.closing frame])) ++ rest =
      opening :: (gap ++ (follow false (entries.map Entry.text) ++ Frame.closing frame :: rest)) := by
    simp [follow]
  rw [htext]
  exact ⟨q, (leads_of_step (hopening outer _ p) (Nat.lt_succ_self _)).trans hinside⟩

theorem fitsFrame_ofItem {i : Item} (h : IsValue i.value) : FitsFrame .list (.ofItem i) where
  takes_front _ p := ⟨p, rfl⟩
  opens := by
    obtain ⟨b, more, hvalue, hb⟩ := h.exists_cons
    simp only [isOpening, Bool.and_eq_true, Bool.not_eq_true', bne_iff_ne, ne_eq] at hb
    refine ⟨i.before, b, more ++ i.behind, i.blanks_before, hb.1.1.1.1, hb.1.1.2, ?_⟩
    simp [Entry.text, Entry.ofItem, Item.text, hvalue]

theorem takes_skipKey (m : Member) : Takes skipKey (Entry.ofMember m).front () := by
  have hfront : (Entry.ofMember m).front = m.before ++ 0x22 :: (m.key ++ [0x22] ++ (m.gap ++ [0x3a])) := by
    simp [Entry.ofMember, stringText]
  rw [hfront]
  refine .of_goesOn ((skipsBlanks_ahead _).goesOn m.blanks_before) (.of_goesOn ((goesOn_ahead rfl).trans goesOn_eat) ?_)
  refine (takes_skipText m.isText_key).bind ?_
  exact .of_goesOn ((skipsBlanks_ahead _).goesOn m.blanks_gap) (Reads.ahead_bind rfl (Reads.eat 0x3a)).takes

theorem fitsFrame_ofMember (m : Member) : FitsFrame .record (.ofMember m) where
  takes_front := takes_skipKey m
  opens := ⟨m.before, 0x22, m.key ++ 0x22 :: (m.gap ++ 0x3a :: m.item.text), m.blanks_before, rfl, by decide, by
    simp [Entry.text, Entry.ofMember, stringText]⟩

theorem passes_list {gap : List UInt8} {items : List Item} (hgap : Blanks gap)
    (hitems : ∀ i ∈ items, IsValue i.value) (hpasses : ∀ i ∈ items, Passes i.value) : Passes (listText gap items) := by
  rw [listText, ← Entry.map_text_ofItem]
  refine passes_frame .list (fun _ _ _ => rfl) ?_ ?_ hgap
  · simp only [List.forall_mem_map]
    exact fun i hi => fitsFrame_ofItem (hitems i hi)
  · simp only [List.forall_mem_map]
    exact hpasses

theorem passes_record {gap : List UInt8} {members : List Member} (hgap : Blanks gap)
    (hpasses : ∀ m ∈ members, Passes m.item.value) : Passes (recordText gap members) := by
  rw [recordText, ← Entry.map_text_ofMember]
  refine passes_frame .record (fun _ _ _ => rfl) ?_ ?_ hgap
  · simp only [List.forall_mem_map]
    exact fun m _ => fitsFrame_ofMember m
  · simp only [List.forall_mem_map]
    exact hpasses

/-! ### All values -/

theorem goesOn_skipValueStep_digit (frames : List Frame) {b : UInt8} (hb : isDigit b = true) (more : List UInt8) :
    GoesOn (skipValueStep frames) (b :: more)
      (do
        skipNumber
        pure (behind frames)) (b :: more) := by
  have hopening := isOpening_of_isDigit hb
  simp only [isOpening, Bool.and_eq_true, Bool.not_eq_true'] at hopening
  intro rest p
  refine ⟨p, ahead_bind_congr hopening.1.1.1.1 ?_ (more ++ rest) p⟩
  split
  · rename_i heq
    cases heq
  iterate 7
    · rename_i heq
      exact absurd (Option.some.inj heq) (ne_of_isDigit hb rfl)
  · rename_i heq
    cases heq
    exact if_pos hb

theorem takes_word_step {b : UInt8} (hb : isBlank b = false) {rest : List UInt8} {frames : List Frame}
    {g : Option UInt8 → Reader (SkipState ⊕ Unit)}
    (hg : g (some b) = do
      eat
      Reader.word rest
      pure (behind frames)) :
    Takes (ahead >>= g) (b :: rest) (behind frames) := by
  refine .of_goesOn (goesOn_ahead hb) ?_
  rw [hg]
  exact .of_goesOn goesOn_eat ((reads_word rest).takes.map fun _ => behind frames)

/-- Every value is passed over. -/
theorem passes_of_isValue {v : List UInt8} (h : IsValue v) : Passes v := by
  induction h with
  | word h =>
      simp only [words, List.mem_cons, List.not_mem_nil, or_false] at h
      rcases h with rfl | rfl | rfl <;>
        exact passes_of_takesItem (List.cons_ne_nil _ _) fun frames => (takes_word_step rfl rfl).item
  | number h =>
      obtain ⟨b, more, rfl, hb⟩ := h.exists_cons
      refine passes_of_takesItem (List.cons_ne_nil _ _) fun frames => ?_
      refine .of_goesOnItem (goesOn_skipValueStep_digit frames hb more).item fun rest p hrest => ?_
      obtain ⟨q, hskip⟩ := takesItem_skipNumber h rest p hrest
      exact ⟨q, bind_done hskip⟩
  | @negative digits h =>
      refine passes_of_takesItem (List.cons_ne_nil _ _) fun frames => ?_
      have hgo : GoesOn (skipValueStep frames) (0x2d :: digits) (skipNumber >>= fun _ => pure (behind frames)) digits :=
        (goesOn_ahead rfl).trans goesOn_eat
      refine .of_goesOnItem hgo.item fun rest p hrest => ?_
      obtain ⟨q, hskip⟩ := takesItem_skipNumber h rest p hrest
      exact ⟨q, bind_done hskip⟩
  | @text raw h =>
      refine passes_of_takesItem (List.cons_ne_nil _ _) fun frames => ?_
      have hgo : GoesOn (skipValueStep frames) (stringText raw) (skipText >>= fun _ => pure (behind frames))
          (raw ++ [0x22]) :=
        (goesOn_ahead rfl).trans goesOn_eat
      exact (Takes.of_goesOn hgo ((takes_skipText h).map fun _ => behind frames)).item
  | list hgap hitems ih => exact passes_list hgap hitems ih
  | record hgap hmembers ih => exact passes_record hgap ih

/-- A value is passed over with the blanks before it. -/
theorem takesItem_skip {bytes v : List UInt8} (hbytes : Blanks bytes) (h : IsValue v) :
    TakesItem skip (bytes ++ v) () := by
  intro rest p hrest
  obtain ⟨q, s, c, hpath, hlast, -⟩ := (passes_of_isValue h).blanks_append hbytes [] rest p hrest
  exact ⟨q, loop_done_of_path hpath hlast⟩

end ChainHead.Json.Reader
