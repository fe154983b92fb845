/-! Cutting a list at its breaks: at the first one, or at all of them. Nothing but breaks is lost, and no
piece holds a break. -/

namespace ChainHead.Cut

variable {α : Type}

/-- What stands before the first break, and what stands behind it if there is one. -/
def first (isBreak : α → Bool) : List α → List α × Option (List α)
  | [] => ([], none)
  | a :: rest =>
    if isBreak a then ([], some rest)
    else
      let (front, back) := first isBreak rest
      (a :: front, back)

/-- The pieces between breaks. There is always one more than there are breaks. -/
def pieces (isBreak : α → Bool) : List α → List (List α)
  | [] => [[]]
  | a :: rest =>
    if isBreak a then [] :: pieces isBreak rest
    else
      match pieces isBreak rest with
      | [] => [[a]]
      | piece :: more => (a :: piece) :: more

theorem pieces_ne_nil (isBreak : α → Bool) (list : List α) : pieces isBreak list ≠ [] := by
  cases list with
  | nil => simp [pieces]
  | cons a rest =>
    simp only [pieces]
    split
    · simp
    · split <;> simp

theorem pieces_of_none {isBreak : α → Bool} {list : List α} (h : ∀ a ∈ list, isBreak a = false) :
    pieces isBreak list = [list] := by
  induction list with
  | nil => rfl
  | cons a rest ih =>
    simp [pieces, h a (by simp), ih fun b hb => h b (by simp [hb])]

theorem pieces_append {isBreak : α → Bool} {front : List α} {b : α} (rest : List α)
    (h : ∀ a ∈ front, isBreak a = false) (hb : isBreak b = true) :
    pieces isBreak (front ++ b :: rest) = front :: pieces isBreak rest := by
  induction front with
  | nil => simp [pieces, hb]
  | cons a front ih =>
    simp [pieces, h a (by simp), ih fun c hc => h c (by simp [hc])]

theorem flatten_pieces (isBreak : α → Bool) (list : List α) :
    (pieces isBreak list).flatten = list.filter (!isBreak ·) := by
  induction list with
  | nil => rfl
  | cons a rest ih =>
    by_cases ha : isBreak a = true
    · simp [pieces, ha, ih]
    · obtain ⟨piece, more, hpieces⟩ := List.exists_cons_of_ne_nil (pieces_ne_nil isBreak rest)
      simp only [hpieces, List.flatten_cons] at ih
      simp [pieces, ha, hpieces, ← ih]

theorem head?_pieces (isBreak : α → Bool) (list : List α) :
    (pieces isBreak list).head? = some (list.takeWhile (!isBreak ·)) := by
  induction list with
  | nil => rfl
  | cons a rest ih =>
    by_cases ha : isBreak a = true
    · simp [pieces, ha]
    · obtain ⟨piece, more, hpieces⟩ := List.exists_cons_of_ne_nil (pieces_ne_nil isBreak rest)
      rw [hpieces, List.head?_cons, Option.some.injEq] at ih
      simp [pieces, ha, hpieces, ih]

/-- A list is parted at its first break, as long as there is one. -/
theorem induction {isBreak : α → Bool} {P : List α → Prop}
    (whole : ∀ list, (∀ a ∈ list, isBreak a = false) → P list)
    (parted : ∀ front b rest, (∀ a ∈ front, isBreak a = false) → isBreak b = true → P rest →
      P (front ++ b :: rest))
    (list : List α) : P list := by
  suffices h : ∀ front : List α, (∀ a ∈ front, isBreak a = false) → P (front ++ list) from h [] (by simp)
  induction list with
  | nil =>
    intro front hfront
    rw [List.append_nil]
    exact whole front hfront
  | cons b rest ih =>
    intro front hfront
    by_cases hb : isBreak b = true
    · exact parted front b rest hfront hb (ih [] (by simp))
    · rw [List.append_cons]
      refine ih (front ++ [b]) fun a ha => ?_
      rcases List.mem_append.mp ha with ha | ha
      · exact hfront a ha
      · rw [List.mem_singleton.mp ha, Bool.eq_false_iff]
        exact hb

theorem exists_pieces_eq (isBreak : α → Bool) (list : List α) :
    ∃ front last, pieces isBreak list = front ++ [last] :=
  ⟨_, _, (List.dropLast_concat_getLast (pieces_ne_nil isBreak list)).symm⟩

theorem pieces_snoc_of_break {isBreak : α → Bool} {b : α} (hb : isBreak b = true) (list : List α) :
    pieces isBreak (list ++ [b]) = pieces isBreak list ++ [[]] := by
  induction list using @Cut.induction α isBreak with
  | whole list h =>
    rw [pieces_append [] h hb, pieces_of_none h]
    rfl
  | parted front c rest h hc ih =>
    rw [List.append_assoc, List.cons_append, pieces_append _ h hc, ih, pieces_append _ h hc, List.cons_append]

/-- What is no break goes to the last piece. -/
theorem pieces_snoc {isBreak : α → Bool} {a : α} (ha : isBreak a = false) {list : List α} {front : List (List α)}
    {last : List α} (h : pieces isBreak list = front ++ [last]) :
    pieces isBreak (list ++ [a]) = front ++ [last ++ [a]] := by
  induction list using @Cut.induction α isBreak generalizing front with
  | whole list hnone =>
    rw [pieces_of_none hnone] at h
    obtain ⟨rfl, rfl⟩ : front = [] ∧ last = list := by
      cases front <;> simp_all
    refine pieces_of_none fun b hb => ?_
    rcases List.mem_append.mp hb with hb | hb
    · exact hnone b hb
    · rw [List.mem_singleton.mp hb, ha]
  | parted first b rest hfirst hb ih =>
    rw [pieces_append _ hfirst hb] at h
    cases front with
    | nil => simp [pieces_ne_nil] at h
    | cons piece front =>
      obtain ⟨rfl, hrest⟩ := List.cons.inj h
      rw [List.append_assoc, List.cons_append, pieces_append _ hfirst hb, ih hrest, List.cons_append]

/-- As long as no break is taken out, the pieces of what is kept are what is kept of the pieces. -/
theorem pieces_filter {isBreak keep : α → Bool} (hkeep : ∀ a, isBreak a = true → keep a = true) (list : List α) :
    pieces isBreak (list.filter keep) = (pieces isBreak list).map (·.filter keep) := by
  have hnone {front : List α} (h : ∀ a ∈ front, isBreak a = false) : ∀ a ∈ front.filter keep, isBreak a = false :=
    fun a ha => h a (List.mem_filter.mp ha).1
  induction list using @Cut.induction α isBreak with
  | whole list h =>
    rw [pieces_of_none h, pieces_of_none (hnone h)]
    rfl
  | parted front b rest h hb ih =>
    rw [List.filter_append, List.filter_cons_of_pos (hkeep b hb), pieces_append _ (hnone h) hb, ih,
      pieces_append _ h hb, List.map_cons]

theorem first_of_none {isBreak : α → Bool} {list : List α} (h : ∀ a ∈ list, isBreak a = false) :
    first isBreak list = (list, none) := by
  induction list with
  | nil => rfl
  | cons a rest ih =>
    simp [first, h a (by simp), ih fun b hb => h b (by simp [hb])]

end ChainHead.Cut
