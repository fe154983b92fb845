import ChainHead.Proofs.Stream.Blocks

/-! Chunks. A chunk is read up to its first rejected line and the rest of it waits for the next chunk, so what
chunks have told is what their lines tell, read one after the other, except for those that still wait at the
end. Where nothing is rejected nothing waits, and the cuts between the chunks leave no trace. -/

namespace ChainHead.Stream

namespace Gatherer

variable {g h : Gatherer} {line : List UInt8} {rest : List (List UInt8)}

theorem run_of_error {fault : EventFault} (hstep : g.step line = (h, .error fault)) :
    g.run (line :: rest) = (h, [], some fault, rest) := by
  rw [run, hstep]

theorem run_of_ok {event : Option Event} (hstep : g.step line = (h, .ok event)) :
    g.run (line :: rest) =
      ((h.run rest).1, event.toList ++ (h.run rest).2.1, (h.run rest).2.2.1, (h.run rest).2.2.2) := by
  rw [run, hstep]

/-- A run reads lines up to the first one that is rejected, and tells what these lines tell. -/
theorem exists_read (g : Gatherer) (lines : List (List UInt8)) :
    ∃ read, lines = read ++ (g.run lines).2.2.2 ∧ (g.tell read).1 = (g.run lines).1 ∧
      (g.tell read).2 = (g.run lines).2.1.map .ok ++ (g.run lines).2.2.1.toList.map .error ∧
      ((g.run lines).2.2.1 = none → (g.run lines).2.2.2 = []) := by
  induction lines generalizing g with
  | nil => exact ⟨[], rfl, rfl, rfl, fun _ => rfl⟩
  | cons line rest ih =>
      cases hresult : (g.step line).2 with
      | error fault =>
          rw [run_of_error (Prod.ext rfl hresult)]
          refine ⟨[line], rfl, ?_, ?_, by simp⟩
          · rw [tell_singleton]
          · rw [tell_singleton, hresult]
            rfl
      | ok event =>
          obtain ⟨read, hread, hstate, htold, hleft⟩ := ih (g.step line).1
          rw [run_of_ok (Prod.ext rfl hresult)]
          refine ⟨line :: read, by rw [List.cons_append, ← hread], hstate, ?_, hleft⟩
          rw [tell_cons, hresult, htold]
          simp [toldFor]

theorem run_of_isOk {lines : List (List UInt8)} (hok : ∀ told ∈ (g.tell lines).2, told.isOk = true) :
    (g.run lines).1 = (g.tell lines).1 ∧ (g.run lines).2.2 = (none, []) ∧
      (g.run lines).2.1.map .ok = (g.tell lines).2 := by
  induction lines generalizing g with
  | nil => exact ⟨rfl, rfl, rfl⟩
  | cons line rest ih =>
      rw [tell_cons] at hok ⊢
      cases hresult : (g.step line).2 with
      | error fault => simp [hresult, toldFor, Except.isOk, Except.toBool] at hok
      | ok event =>
          obtain ⟨hstate, hleft, htold⟩ := ih fun told htold => hok told (List.mem_append_right _ htold)
          rw [run_of_ok (Prod.ext rfl hresult)]
          exact ⟨hstate, hleft, by simp [toldFor, htold]⟩

/-- Where a run tells of no fault, it reads all lines and none is rejected. -/
theorem isOk_of_run {lines : List (List UInt8)}
    (hok : ∀ told ∈ (g.run lines).2.2.1.toList.map Except.error ++ (g.run lines).2.1.map .ok,
      (told : Told).isOk = true) :
    ∀ told ∈ (g.tell lines).2, told.isOk = true := by
  obtain ⟨read, hread, -, htold, hleft⟩ := g.exists_read lines
  have hfault : (g.run lines).2.2.1 = none := by
    cases hfault : (g.run lines).2.2.1 with
    | none => rfl
    | some fault => cases hok (.error fault) (by simp [hfault])
  rw [hleft hfault, List.append_nil] at hread
  rw [hfault] at htold hok
  rw [hread, htold, Option.toList_none, List.map_nil, List.append_nil]
  exact hok

end Gatherer

/-! ### What a parser has read -/

/-- A parser has read some lines of a body so far and waits to read the others. -/
structure Parser.HasRead (p : Parser) (body : List UInt8) (read : List (List UInt8)) : Prop where
  lines_eq : body.foldl Lines.push {} = { p.lines with done := read ++ p.lines.done }
  gatherer_eq : p.gatherer = (Gatherer.tell {} read).1

theorem Parser.hasRead_nil : Parser.HasRead {} [] [] := ⟨rfl, rfl⟩

theorem Parser.HasRead.cutLines_eq {p : Parser} {body : List UInt8} {read : List (List UInt8)}
    (h : p.HasRead body read) : (cutLines body).1 = read ++ p.lines.done := by
  rw [← done_foldl_push, h.lines_eq]

theorem Parser.HasRead.ending_eq {p : Parser} {body : List UInt8} {read : List (List UInt8)}
    (h : p.HasRead body read) (hdone : p.lines.done = []) : p.ending = bodyEnding (cutLines body).2 := by
  have htail : p.lines.tail = (cutLines body).2.reverse := by
    rw [← tail_foldl_push, h.lines_eq]
  simp [Parser.ending, bodyEnding, htail, hdone]

theorem Parser.HasRead.foldl_push {p : Parser} {body : List UInt8} {read : List (List UInt8)}
    (h : p.HasRead body read) (chunk : List UInt8) :
    (body ++ chunk).foldl Lines.push {} =
      { chunk.foldl Lines.push p.lines with done := read ++ (chunk.foldl Lines.push p.lines).done } := by
  rw [List.foldl_append, h.lines_eq, foldl_push_append]

theorem Parser.feed_eq (p : Parser) (chunk : List UInt8) :
    p.feed chunk =
      (⟨{ chunk.foldl Lines.push p.lines with
            done := (p.gatherer.run (chunk.foldl Lines.push p.lines).done).2.2.2 },
          (p.gatherer.run (chunk.foldl Lines.push p.lines).done).1⟩,
        (p.gatherer.run (chunk.foldl Lines.push p.lines).done).2.2.1.toList.map .error ++
          (p.gatherer.run (chunk.foldl Lines.push p.lines).done).2.1.map .ok) :=
  rfl

/-- A fault is told before the events of its chunk, which is no other telling. -/
theorem sameTold_comm (faults : List EventFault) (events : List Event) :
    SameTold (faults.map .error ++ events.map .ok) (events.map .ok ++ faults.map .error) := by
  have hevents : eventsOf (faults.map .error) = [] := by simp [eventsOf, Except.toOption]
  have hfaults : faultsOf (events.map .ok) = [] := by simp [faultsOf, fault?]
  constructor
  · rw [eventsOf_append, eventsOf_append, hevents, List.nil_append, List.append_nil]
  · rw [faultsOf_append, faultsOf_append, hfaults, List.nil_append, List.append_nil]

/-- A chunk is read up to its first rejected line, and tells what the lines tell that are read. -/
theorem Parser.HasRead.feed {p : Parser} {body : List UInt8} {read : List (List UInt8)}
    (h : p.HasRead body read) (chunk : List UInt8) :
    ∃ more, (p.feed chunk).1.HasRead (body ++ chunk) (read ++ more) ∧
      SameTold (p.feed chunk).2 (p.gatherer.tell more).2 := by
  obtain ⟨more, hmore, hstate, htold, _⟩ := p.gatherer.exists_read (chunk.foldl Lines.push p.lines).done
  rw [feed_eq]
  refine ⟨more, ⟨?_, ?_⟩, ?_⟩
  · rw [h.foldl_push chunk]
    simp only [List.append_assoc, ← hmore]
  · rw [Gatherer.tell_append, ← h.gatherer_eq, hstate]
  · rw [htold]
    exact sameTold_comm _ _

theorem Parser.HasRead.gatherer_feed {p : Parser} {body chunk : List UInt8} {read more : List (List UInt8)}
    (h : p.HasRead body read) (hfeed : (p.feed chunk).1.HasRead (body ++ chunk) (read ++ more)) :
    (p.feed chunk).1.gatherer = (p.gatherer.tell more).1 := by
  rw [hfeed.gatherer_eq, Gatherer.tell_append, ← h.gatherer_eq]

theorem Parser.HasRead.feedAll {p : Parser} {body : List UInt8} {read : List (List UInt8)}
    (h : p.HasRead body read) (chunks : List (List UInt8)) :
    ∃ more, (p.feedAll chunks).1.HasRead (body ++ chunks.flatten) (read ++ more) ∧
      SameTold (p.feedAll chunks).2 (p.gatherer.tell more).2 := by
  induction chunks generalizing p body read with
  | nil =>
      refine ⟨[], ?_, .refl []⟩
      rw [List.flatten_nil, List.append_nil, List.append_nil]
      exact h
  | cons chunk rest ih =>
      obtain ⟨more, hfeed, htold⟩ := h.feed chunk
      obtain ⟨others, hrest, hothers⟩ := ih hfeed
      refine ⟨more ++ others, ?_, ?_⟩
      · rw [List.flatten_cons, ← List.append_assoc, ← List.append_assoc]
        exact hrest
      · rw [Gatherer.tell_append, ← h.gatherer_feed hfeed]
        exact htold.append hothers

/-! ### Bodies in which nothing is rejected -/

theorem Parser.HasRead.feed_of_isOk {p : Parser} {body : List UInt8} {read : List (List UInt8)}
    (h : p.HasRead body read) {chunk : List UInt8} {more : List (List UInt8)}
    (hmore : (chunk.foldl Lines.push p.lines).done = more)
    (hok : ∀ told ∈ (p.gatherer.tell more).2, told.isOk = true) :
    (p.feed chunk).1.HasRead (body ++ chunk) (read ++ more) ∧ (p.feed chunk).1.lines.done = [] ∧
      (p.feed chunk).2 = (p.gatherer.tell more).2 := by
  obtain ⟨hstate, hleft, htold⟩ := Gatherer.run_of_isOk hok
  rw [Parser.feed_eq, hmore, hstate, hleft, htold]
  refine ⟨⟨?_, ?_⟩, rfl, rfl⟩
  · rw [h.foldl_push chunk, hmore, List.append_nil]
  · rw [Gatherer.tell_append, ← h.gatherer_eq]

/-- The lines of the first chunk come first, since later bytes never change a finished line. -/
theorem Parser.HasRead.exists_others {p : Parser} {body : List UInt8} {read more : List (List UInt8)}
    (h : p.HasRead body read) {chunk : List UInt8} {rest : List (List UInt8)}
    (hmore : (cutLines (body ++ (chunk :: rest).flatten)).1 = read ++ more) :
    ∃ others, more = (chunk.foldl Lines.push p.lines).done ++ others := by
  obtain ⟨others, hothers⟩ := done_prefix_foldl_push rest.flatten (chunk.foldl Lines.push p.lines)
  refine ⟨others, ?_⟩
  rw [← done_foldl_push, List.flatten_cons, h.foldl_push, List.foldl_append] at hmore
  rw [← List.append_cancel_left hmore, ← hothers]

theorem Parser.HasRead.feedAll_of_isOk {p : Parser} {body : List UInt8} {read more : List (List UInt8)}
    (h : p.HasRead body read) (hdone : p.lines.done = []) {chunks : List (List UInt8)}
    (hmore : (cutLines (body ++ chunks.flatten)).1 = read ++ more)
    (hok : ∀ told ∈ (p.gatherer.tell more).2, told.isOk = true) :
    (p.feedAll chunks).1.HasRead (body ++ chunks.flatten) (read ++ more) ∧
      (p.feedAll chunks).1.lines.done = [] ∧ (p.feedAll chunks).2 = (p.gatherer.tell more).2 := by
  induction chunks generalizing p body read more with
  | nil =>
      rw [List.flatten_nil, List.append_nil, h.cutLines_eq, hdone, List.append_right_inj] at hmore
      subst hmore
      rw [List.flatten_nil, List.append_nil, List.append_nil]
      exact ⟨h, hdone, rfl⟩
  | cons chunk rest ih =>
      -- what the first chunk finishes is read at once, and the others finish the lines behind it
      obtain ⟨others, rfl⟩ := h.exists_others hmore
      rw [Gatherer.tell_append] at hok ⊢
      obtain ⟨hfeed, hfeedDone, htold⟩ := h.feed_of_isOk rfl fun told hmem => hok told (List.mem_append_left _ hmem)
      have hgatherer := h.gatherer_feed hfeed
      rw [List.flatten_cons, ← List.append_assoc, ← List.append_assoc] at hmore
      obtain ⟨hrest, hrestDone, hrestTold⟩ := ih hfeed hfeedDone hmore fun told hmem =>
        hok told (List.mem_append_right _ (hgatherer ▸ hmem))
      rw [List.flatten_cons, ← List.append_assoc, ← List.append_assoc]
      refine ⟨hrest, hrestDone, ?_⟩
      rw [Parser.feedAll, ← htold, ← hgatherer, ← hrestTold]

/-- Where no chunk tells of a fault, there is none. -/
theorem Parser.HasRead.isOk_of_feedAll {p : Parser} {body : List UInt8} {read more : List (List UInt8)}
    (h : p.HasRead body read) (hdone : p.lines.done = []) {chunks : List (List UInt8)}
    (hmore : (cutLines (body ++ chunks.flatten)).1 = read ++ more)
    (hok : ∀ told ∈ (p.feedAll chunks).2, told.isOk = true) :
    ∀ told ∈ (p.gatherer.tell more).2, told.isOk = true := by
  induction chunks generalizing p body read more with
  | nil =>
      rw [List.flatten_nil, List.append_nil, h.cutLines_eq, hdone, List.append_right_inj] at hmore
      subst hmore
      exact fun told htold => nomatch htold
  | cons chunk rest ih =>
      obtain ⟨others, rfl⟩ := h.exists_others hmore
      have hfirst := Gatherer.isOk_of_run fun told htold => hok told (List.mem_append_left _ htold)
      obtain ⟨hfeed, hfeedDone, -⟩ := h.feed_of_isOk rfl hfirst
      rw [List.flatten_cons, ← List.append_assoc, ← List.append_assoc] at hmore
      have hothers := ih hfeed hfeedDone hmore fun told htold => hok told (List.mem_append_right _ htold)
      rw [h.gatherer_feed hfeed] at hothers
      intro told htold
      rw [Gatherer.tell_append] at htold
      rcases List.mem_append.mp htold with htold | htold
      · exact hfirst told htold
      · exact hothers told htold

/-- Chunks tell of no fault exactly if their body has none, wherever it is cut. -/
theorem isOk_feedAll_iff (chunks : List (List UInt8)) :
    (∀ told ∈ (Parser.feedAll {} chunks).2, told.isOk = true) ↔ IsFaultless chunks.flatten := by
  have hlines : (cutLines ([] ++ chunks.flatten)).1 = [] ++ (cutLines chunks.flatten).1 := rfl
  constructor
  · intro hok
    obtain ⟨hreadable, hempty⟩ :=
      (isOk_tell_iff _ none).mp (Parser.hasRead_nil.isOk_of_feedAll rfl hlines hok)
    exact ⟨hreadable, hempty⟩
  · intro h
    have hok := (isOk_tell_iff _ none).mpr ⟨h.readable, h.noEmptyEvent⟩
    rw [(Parser.hasRead_nil.feedAll_of_isOk rfl hlines hok).2.2]
    exact hok

theorem bodyItems_eq (chunks : List (List UInt8)) (ending : Ending) :
    bodyItems chunks ending = (Parser.feedAll {} chunks).2.filterMap item? ++
      ending.items (Parser.feedAll {} chunks).1.ending :=
  rfl

/-- What a faultless body yields is read off the whole of it. -/
theorem bodyItems_of_isFaultless {chunks : List (List UInt8)} (h : IsFaultless chunks.flatten) (ending : Ending) :
    .connected :: bodyItems chunks ending = reading chunks.flatten ending := by
  have hlines : (cutLines ([] ++ chunks.flatten)).1 = [] ++ (cutLines chunks.flatten).1 := rfl
  obtain ⟨hitems, hok⟩ := tell_of_readable none h.readable h.noEmptyEvent
  obtain ⟨hread, hdone, htold⟩ := Parser.hasRead_nil.feedAll_of_isOk rfl hlines hok
  have hending := hread.ending_eq hdone
  rw [List.nil_append] at hending
  rw [reading, bodyItems_eq, htold, hending, ← hitems]
  rfl

end ChainHead.Stream
