import ChainHead.Proofs.Stream.Reading
import Mathlib.Data.List.Induction

/-! What is gathered from the lines of a block. The gatherer takes lines one by one and keeps an event that is
not finished; at the end of a block this event is the one that the values of its fields make. A line that is
rejected changes nothing, so what is said here of a block holds of its readable lines. -/

namespace ChainHead.Stream

def toldFor : Except EventFault (Option Event) → List Told
  | .error fault => [.error fault]
  | .ok event => event.toList.map .ok

/-- Reads all of some lines, whatever is rejected among them. -/
def Gatherer.tell (g : Gatherer) : List (List UInt8) → Gatherer × List Told
  | [] => (g, [])
  | line :: rest =>
    let (h, result) := g.step line
    let (k, more) := h.tell rest
    (k, toldFor result ++ more)

theorem Gatherer.tell_cons (g : Gatherer) (line : List UInt8) (rest : List (List UInt8)) :
    g.tell (line :: rest) =
      (((g.step line).1.tell rest).1, toldFor (g.step line).2 ++ ((g.step line).1.tell rest).2) :=
  rfl

theorem Gatherer.tell_append (g : Gatherer) (front back : List (List UInt8)) :
    g.tell (front ++ back) = (((g.tell front).1.tell back).1, (g.tell front).2 ++ ((g.tell front).1.tell back).2) := by
  induction front generalizing g with
  | nil => rfl
  | cons line rest ih => rw [List.cons_append, tell_cons, tell_cons, ih, List.append_assoc]

theorem Gatherer.tell_singleton (g : Gatherer) (line : List UInt8) :
    g.tell [line] = ((g.step line).1, toldFor (g.step line).2) := by
  rw [tell_cons, tell, List.append_nil]

def eventsOf (told : List Told) : List Event := told.filterMap Except.toOption

theorem eventsOf_append (front back : List Told) : eventsOf (front ++ back) = eventsOf front ++ eventsOf back :=
  List.filterMap_append

def fault? : Told → Option EventFault
  | .error fault => some fault
  | .ok _ => none

def faultsOf (told : List Told) : List EventFault := told.filterMap fault?

theorem faultsOf_append (front back : List Told) : faultsOf (front ++ back) = faultsOf front ++ faultsOf back :=
  List.filterMap_append

/-- The same events are told, and the same faults, each in their order. -/
structure SameTold (told told' : List Told) : Prop where
  events_eq : eventsOf told = eventsOf told'
  faults_eq : faultsOf told = faultsOf told'

theorem SameTold.refl (told : List Told) : SameTold told told := ⟨rfl, rfl⟩

theorem SameTold.append {front front' back back' : List Told} (hfront : SameTold front front')
    (hback : SameTold back back') : SameTold (front ++ back) (front' ++ back') where
  events_eq := by rw [eventsOf_append, eventsOf_append, hfront.events_eq, hback.events_eq]
  faults_eq := by rw [faultsOf_append, faultsOf_append, hfront.faults_eq, hback.faults_eq]

/-! ### Fields of a block -/

theorem values_append (name : String) (front back : List (List UInt8)) :
    values name (front ++ back) = values name front ++ values name back := by
  simp [values]

theorem values_singleton (name : String) (line : List UInt8) :
    values name [line] = if fieldName line = name then [fieldValue line] else [] := by
  by_cases h : fieldName line = name <;> simp [values, h]

def isKnownName (name : String) : Bool := ["event", "data", "id", "retry"].contains name

theorem isField_of_isKnownName {line : List UInt8} (h : isKnownName (fieldName line) = true) :
    isField line = true := by
  simp only [isKnownName, List.contains_cons, List.contains_nil, Bool.or_false, Bool.or_eq_true, beq_iff_eq] at h
  rcases h with h | h | h | h <;> rw [isField, h] <;> decide

theorem values_of_no_field {name : String} (hname : isKnownName name = true) {block : List (List UInt8)}
    (h : block.any isField = false) : values name block = [] := by
  rw [values, List.map_eq_nil_iff, List.filter_eq_nil_iff]
  intro line hline heq
  rw [decide_eq_true_eq] at heq
  rw [List.any_eq_false] at h
  exact h line hline (isField_of_isKnownName (heq ▸ hname))

/-- The event that the fields of a block make, where an identifier was set before or not. -/
def gathered (lastId : Option String) (block : List (List UInt8)) : Gathered where
  type := blockType block
  data := if values "data" block = [] then none else some (values "data" block)
  id := (identifiers block).getLast?.or lastId
  retry := (retries block).getLast?

/-- The gatherer behind the lines of a block. -/
def behindLines (lastId : Option String) (block : List (List UInt8)) : Gatherer where
  event := if block.any isField then some (gathered lastId block) else none
  lastId := (identifiers block).getLast?.or lastId

theorem gathered_of_no_field {lastId : Option String} {block : List (List UInt8)}
    (h : block.any isField = false) : gathered lastId block = { id := lastId } := by
  have hvalues (name : String) (hname : isKnownName name = true) : values name block = [] :=
    values_of_no_field hname h
  simp [gathered, blockType, identifiers, retries, hvalues "event" (by decide), hvalues "data" (by decide),
    hvalues "id" (by decide), hvalues "retry" (by decide)]

theorem getD_behindLines (lastId : Option String) (block : List (List UInt8)) :
    (behindLines lastId block).event.getD { id := (behindLines lastId block).lastId } = gathered lastId block := by
  rw [behindLines]
  split
  · rfl
  · rename_i h
    rw [Bool.not_eq_true] at h
    have hids : identifiers block = [] := by
      rw [identifiers, values_of_no_field (by decide) h, List.filter_nil]
    rw [Option.getD_none, gathered_of_no_field h, hids]
    rfl

/-- One more field adds to the event what its name and its value say. -/
theorem gathered_append_singleton (lastId : Option String) (block : List (List UInt8)) (line : List UInt8) :
    gathered lastId (block ++ [line]) = (gathered lastId block).add (fieldName line) (fieldValue line) := by
  simp only [gathered, blockType, identifiers, retries, values_append, values_singleton, Gathered.add]
  by_cases hevent : fieldName line = "event"
  · simp [hevent]
  by_cases hdata : fieldName line = "data"
  · by_cases hnone : values "data" block = [] <;> simp [hdata, hnone]
  by_cases hid : fieldName line = "id"
  · by_cases hzero : '\x00' ∈ (fieldValue line).toList <;> simp [hid, hzero]
  by_cases hretry : fieldName line = "retry"
  · cases hread : Numeral.read (fieldValue line).toList <;> simp [hretry, hread, Except.toOption]
  simp [hevent, hdata, hid, hretry]

theorem identifiers_append_singleton (block : List (List UInt8)) (line : List UInt8) :
    identifiers (block ++ [line]) = identifiers block ++
      if fieldName line = "id" ∧ !(fieldValue line).contains '\x00' then [fieldValue line] else [] := by
  rw [identifiers, identifiers, values_append, values_singleton, List.filter_append]
  by_cases hid : fieldName line = "id"
  · by_cases hzero : '\x00' ∈ (fieldValue line).toList <;> simp [hid, hzero]
  · simp [hid]

theorem push_field {lastId : Option String} {block : List (List UInt8)} {line : List UInt8}
    (h : isField line = true) :
    (behindLines lastId block).push (.field (fieldName line) (fieldValue line)) =
      (behindLines lastId (block ++ [line]), .ok none) := by
  rw [Gatherer.push, getD_behindLines, ← gathered_append_singleton]
  simp only [behindLines, List.any_append, List.any_cons, List.any_nil, h, Bool.or_false, Bool.or_true, if_true,
    identifiers_append_singleton]
  split_ifs <;> simp

theorem behindLines_of_not_isField {lastId : Option String} {block : List (List UInt8)} {line : List UInt8}
    (h : isField line = false) : behindLines lastId (block ++ [line]) = behindLines lastId block := by
  have hvalues (name : String) (hname : isKnownName name = true) :
      values name (block ++ [line]) = values name block := by
    have hline : values name [line] = [] := values_of_no_field hname (by simpa using h)
    rw [values_append, hline, List.append_nil]
  simp [behindLines, gathered, blockType, identifiers, retries, h, hvalues "event" (by decide),
    hvalues "data" (by decide), hvalues "id" (by decide), hvalues "retry" (by decide)]

/-- A line inside of a block adds to what is gathered if it is readable, and changes nothing otherwise. -/
theorem step_behindLines (lastId : Option String) (block : List (List UInt8)) {line : List UInt8}
    (hline : line ≠ []) :
    if isReadable line then
      (behindLines lastId block).step line = (behindLines lastId (block ++ [line]), .ok none)
    else ∃ fault, (behindLines lastId block).step line = (behindLines lastId block, .error fault) := by
  cases hreadable : isReadable line with
  | true =>
      rw [if_pos rfl, Gatherer.step, read_of_isReadable hreadable, lineOf, if_neg hline]
      cases hfield : isField line with
      | true => exact push_field hfield
      | false =>
          rw [behindLines_of_not_isField hfield]
          rfl
  | false =>
      obtain ⟨fault, hfault⟩ := read_of_not_isReadable hreadable
      exact ⟨fault, by rw [Gatherer.step, hfault]⟩

/-- Inside of a block nothing is told but what is wrong with its lines. -/
theorem tell_block (lastId : Option String) {block : List (List UInt8)} (h : ∀ line ∈ block, line ≠ []) :
    (Gatherer.tell ⟨none, lastId⟩ block).1 = behindLines lastId (block.filter isReadable) ∧
      eventsOf (Gatherer.tell ⟨none, lastId⟩ block).2 = [] ∧
      ((Gatherer.tell ⟨none, lastId⟩ block).2 = [] ↔ block.all isReadable = true) := by
  induction block using List.reverseRecOn with
  | nil => exact ⟨rfl, rfl, by simp [Gatherer.tell]⟩
  | append_singleton block line ih =>
      obtain ⟨hstate, hevents, htold⟩ := ih fun l hl => h l (List.mem_append_left _ hl)
      have hstep := step_behindLines lastId (block.filter isReadable) (h line (by simp))
      rw [Gatherer.tell_append, Gatherer.tell_singleton, hstate, List.filter_append, eventsOf_append, hevents]
      cases hreadable : isReadable line with
      | true =>
          rw [hreadable, if_pos rfl] at hstep
          rw [hstep]
          simpa [hreadable, toldFor, eventsOf] using htold
      | false =>
          rw [hreadable, if_neg (by simp)] at hstep
          obtain ⟨fault, hfault⟩ := hstep
          rw [hfault]
          simp [hreadable, toldFor, eventsOf, Except.toOption]

/-! ### The end of a block -/

theorem gathered_eq_empty_iff (lastId : Option String) (block : List (List UInt8)) :
    gathered lastId block = {} ↔
      blockType block = "" ∧ values "data" block = [] ∧ (identifiers block = [] ∧ lastId = none) ∧
        retries block = [] := by
  simp [gathered]

theorem isEmptyEvent_eq (lastId : Option String) (block : List (List UInt8)) :
    isEmptyEvent lastId.isSome block = (block.any isField && decide (gathered lastId block = {})) := by
  rw [Bool.eq_iff_iff]
  simp only [isEmptyEvent, gathered_eq_empty_iff, Bool.and_eq_true, decide_eq_true_eq, Bool.not_eq_true',
    Option.isSome_eq_false_iff, Option.isNone_iff_eq_none]
  tauto

/-- What a blank line makes of the event that a block has made. -/
theorem finish_gathered {lastId : Option String} {block : List (List UInt8)} (h : gathered lastId block ≠ {}) :
    (gathered lastId block).finish =
      .ok (if values "data" block = [] then none
        else some
          { type := if blockType block = "" then "message" else blockType block
            data := String.intercalate "\n" (values "data" block) }) := by
  rw [Gathered.finish, if_neg h]
  by_cases hdata : values "data" block = [] <;> simp [gathered, hdata]

theorem step_blank (lastId : Option String) (block : List (List UInt8)) :
    (behindLines lastId block).step [] =
      (⟨none, (identifiers block).getLast?.or lastId⟩,
        if block.any isField then (gathered lastId block).finish else .ok none) := by
  have hread : Line.read [] = .ok .blank := rfl
  rw [Gatherer.step, hread, behindLines]
  by_cases hfield : block.any isField = true <;> simp only [hfield, Gatherer.push] <;> rfl

theorem blockItem?_of_no_data {block : List (List UInt8)} (h : values "data" block = []) :
    blockItem? block = none := by
  rw [blockItem?, headData?, if_neg fun hboth => hboth.2 h, Option.map_none]

theorem item?_of_block {block : List (List UInt8)} (h : values "data" block ≠ []) :
    item? (.ok
      { type := if blockType block = "" then "message" else blockType block
        data := String.intercalate "\n" (values "data" block) }) = blockItem? block := by
  have htype : (if blockType block = "" then "message" else blockType block) = headType ↔
      blockType block = headType := by
    split_ifs with hnone
    · rw [hnone]
      decide
    · rfl
  simp only [item?, blockItem?, headData?, htype, h, ne_eq, not_false_eq_true, and_true]
  split_ifs
  · rw [Option.map_some, headItem]
    split <;> simp_all
  · rfl

theorem filterMap_toldFor (event : Event) :
    (toldFor (.ok (some event))).filterMap item? = (item? (.ok event)).toList := by
  simp only [toldFor, Option.toList_some, List.map_cons, List.map_nil, List.filterMap_cons, List.filterMap_nil]
  cases item? (.ok event) <;> rfl

/-- A block with readable lines that is no empty event is told as its item, or not at all. -/
theorem tell_blank_of_not_empty {lastId : Option String} {block : List (List UInt8)}
    (h : isEmptyEvent lastId.isSome block = false) :
    (toldFor ((behindLines lastId block).step []).2).filterMap item? = (blockItem? block).toList ∧
      ∀ told ∈ toldFor ((behindLines lastId block).step []).2, told.isOk = true := by
  rw [step_blank]
  rw [isEmptyEvent_eq] at h
  cases hfield : block.any isField with
  | false =>
      rw [blockItem?_of_no_data (values_of_no_field (by decide) hfield)]
      simp [toldFor]
  | true =>
      rw [hfield, Bool.true_and, decide_eq_false_iff_not] at h
      rw [if_pos rfl, finish_gathered h]
      by_cases hdata : values "data" block = []
      · simp [toldFor, hdata, blockItem?_of_no_data hdata]
      · rw [if_neg hdata, filterMap_toldFor, item?_of_block hdata]
        exact ⟨rfl, by simp [toldFor, Except.isOk, Except.toBool]⟩

/-- An empty event is rejected, and has no item. -/
theorem tell_blank_of_empty {lastId : Option String} {block : List (List UInt8)}
    (h : isEmptyEvent lastId.isSome block = true) :
    ((behindLines lastId block).step []).2 = .error .emptyEvent ∧ blockItem? block = none := by
  rw [isEmptyEvent_eq, Bool.and_eq_true, decide_eq_true_eq] at h
  refine ⟨?_, blockItem?_of_no_data ((gathered_eq_empty_iff lastId block).mp h.2).2.1⟩
  rw [step_blank, if_pos h.1, h.2]
  rfl

/-! ### All blocks -/

theorem blocks_of_no_blank {lines : List (List UInt8)} (h : ∀ line ∈ lines, line ≠ []) : blocks lines = [] := by
  rw [blocks, Cut.pieces_of_none fun line hline => List.isEmpty_eq_false_iff.mpr (h line hline)]
  rfl

theorem blocks_append {block : List (List UInt8)} (h : ∀ line ∈ block, line ≠ []) (rest : List (List UInt8)) :
    blocks (block ++ [] :: rest) = block :: blocks rest := by
  rw [blocks, Cut.pieces_append rest (fun line hline => List.isEmpty_eq_false_iff.mpr (h line hline)) rfl,
    List.dropLast_cons_of_ne_nil (Cut.pieces_ne_nil _ _)]
  rfl

/-- Lines are parted at their first blank one, as long as there is one. -/
theorem lines_induction {P : List (List UInt8) → Prop} (hopen : ∀ lines, (∀ line ∈ lines, line ≠ []) → P lines)
    (hblock : ∀ block rest, (∀ line ∈ block, line ≠ []) → P rest → P (block ++ [] :: rest))
    (lines : List (List UInt8)) : P lines := by
  have hnonblank {block : List (List UInt8)} (h : ∀ line ∈ block, line.isEmpty = false) :
      ∀ line ∈ block, line ≠ [] :=
    fun line hline => List.isEmpty_eq_false_iff.mp (h line hline)
  refine Cut.induction (fun lines hlines => hopen lines (hnonblank hlines)) ?_ lines
  intro block line rest hlines hline ih
  rw [List.isEmpty_iff.mp hline]
  exact hblock block rest (hnonblank hlines) ih

/-- Behind a block the gatherer holds nothing but the last identifier. -/
theorem tell_block_append {lastId : Option String} {block : List (List UInt8)} (h : ∀ line ∈ block, line ≠ [])
    (rest : List (List UInt8)) :
    (Gatherer.tell ⟨none, lastId⟩ (block ++ [] :: rest)).2 =
      (Gatherer.tell ⟨none, lastId⟩ block).2 ++
        toldFor ((behindLines lastId (block.filter isReadable)).step []).2 ++
        (Gatherer.tell ⟨none, (identifiers (block.filter isReadable)).getLast?.or lastId⟩ rest).2 := by
  rw [Gatherer.tell_append, (tell_block lastId h).1, Gatherer.tell_cons, step_blank, List.append_assoc]

theorem isSome_getLast?_or (lastId : Option String) (block : List (List UInt8)) :
    ((identifiers block).getLast?.or lastId).isSome = (lastId.isSome || decide (identifiers block ≠ [])) := by
  cases lastId <;> cases hids : identifiers block <;> simp

/-- Lines that are readable and make no empty event are told as the items of their blocks. -/
theorem tell_of_readable {lines : List (List UInt8)} (lastId : Option String)
    (hreadable : lines.all isReadable = true) (hempty : NoEmptyEvent lastId.isSome (blocks lines)) :
    (Gatherer.tell ⟨none, lastId⟩ lines).2.filterMap item? = (blocks lines).filterMap blockItem? ∧
      ∀ told ∈ (Gatherer.tell ⟨none, lastId⟩ lines).2, told.isOk = true := by
  induction lines using lines_induction generalizing lastId with
  | hopen lines hlines =>
      rw [(tell_block lastId hlines).2.2.mpr hreadable, blocks_of_no_blank hlines]
      simp
  | hblock block rest hblock ih =>
      rw [List.all_append, List.all_cons, Bool.and_eq_true, Bool.and_eq_true] at hreadable
      rw [blocks_append hblock] at hempty ⊢
      obtain ⟨hblockEmpty, hrestEmpty⟩ := hempty
      have hfilter : block.filter isReadable = block :=
        List.filter_eq_self.mpr (List.all_eq_true.mp hreadable.1)
      obtain ⟨hitems, hok⟩ := ih _ hreadable.2.2 (isSome_getLast?_or lastId block ▸ hrestEmpty)
      obtain ⟨hblockItems, hblockOk⟩ := tell_blank_of_not_empty hblockEmpty
      rw [tell_block_append hblock, (tell_block lastId hblock).2.2.mpr hreadable.1, hfilter, List.nil_append,
        List.filterMap_append, hitems, hblockItems]
      refine ⟨?_, fun told htold => ?_⟩
      · cases hitem : blockItem? block <;> simp [hitem]
      · rcases List.mem_append.mp htold with htold | htold
        · exact hblockOk told htold
        · exact hok told htold

/-- Inside of a block every told thing is a fault, so nothing but faults can be missing. -/
theorem tell_block_eq_nil {lastId : Option String} {block : List (List UInt8)} (h : ∀ line ∈ block, line ≠ [])
    (hok : ∀ told ∈ (Gatherer.tell ⟨none, lastId⟩ block).2, told.isOk = true) :
    (Gatherer.tell ⟨none, lastId⟩ block).2 = [] := by
  apply List.eq_nil_iff_forall_not_mem.mpr
  intro told htold
  cases told with
  | error fault => cases hok _ htold
  | ok event =>
      have hevent : event ∈ eventsOf (Gatherer.tell ⟨none, lastId⟩ block).2 :=
        List.mem_filterMap.mpr ⟨.ok event, htold, rfl⟩
      rw [(tell_block lastId h).2.1] at hevent
      cases hevent

/-- Nothing is rejected exactly if all lines are readable and make no empty event. -/
theorem isOk_tell_iff (lines : List (List UInt8)) (lastId : Option String) :
    (∀ told ∈ (Gatherer.tell ⟨none, lastId⟩ lines).2, told.isOk = true) ↔
      lines.all isReadable = true ∧ NoEmptyEvent lastId.isSome (blocks lines) := by
  refine ⟨fun hok => ?_, fun h => (tell_of_readable lastId h.1 h.2).2⟩
  induction lines using lines_induction generalizing lastId with
  | hopen lines hlines =>
      rw [blocks_of_no_blank hlines]
      exact ⟨(tell_block lastId hlines).2.2.mp (tell_block_eq_nil hlines hok), trivial⟩
  | hblock block rest hblock ih =>
      rw [tell_block_append hblock] at hok
      have hreadable := (tell_block lastId hblock).2.2.mp (tell_block_eq_nil hblock fun told htold =>
        hok told (List.mem_append_left _ (List.mem_append_left _ htold)))
      rw [List.filter_eq_self.mpr (List.all_eq_true.mp hreadable)] at hok
      obtain ⟨hrest, hrestEmpty⟩ := ih _ fun told htold => hok told (List.mem_append_right _ htold)
      rw [blocks_append hblock, List.all_append, List.all_cons, hreadable, hrest]
      refine ⟨rfl, ?_, isSome_getLast?_or lastId block ▸ hrestEmpty⟩
      cases hempty : isEmptyEvent lastId.isSome block with
      | false => rfl
      | true =>
          have hfault := hok (.error .emptyEvent) (List.mem_append_left _ (List.mem_append_right _ (by
            rw [(tell_blank_of_empty hempty).1]
            exact List.mem_singleton_self _)))
          cases hfault

/-! ### Heads, whatever is rejected -/

def headsTold (told : List Told) : List HeadEvent := (told.filterMap item?).filterMap StreamItem.head?

/-- The head of a block of which the rejected lines are left out. -/
def keptHead? (block : List (List UInt8)) : Option HeadEvent :=
  (blockItem? (block.filter isReadable)).bind StreamItem.head?

theorem headsTold_append (front back : List Told) : headsTold (front ++ back) = headsTold front ++ headsTold back := by
  simp [headsTold]

theorem headsTold_eq_of_eventsOf {told : List Told} :
    headsTold told = headsTold ((eventsOf told).map .ok) := by
  induction told with
  | nil => rfl
  | cons first rest ih =>
      cases first with
      | error fault =>
          have hnone : headsTold [.error fault] = [] := rfl
          rw [← List.singleton_append, headsTold_append, hnone, eventsOf_append, ih]
          rfl
      | ok event =>
          rw [← List.singleton_append, headsTold_append, eventsOf_append, List.map_append, headsTold_append, ih]
          rfl

theorem SameTold.headsTold_eq {told told' : List Told} (h : SameTold told told') : headsTold told = headsTold told' := by
  rw [headsTold_eq_of_eventsOf, h.events_eq, ← headsTold_eq_of_eventsOf]

theorem headsTold_block {lastId : Option String} {block : List (List UInt8)} (h : ∀ line ∈ block, line ≠ []) :
    headsTold (Gatherer.tell ⟨none, lastId⟩ block).2 = [] := by
  rw [headsTold_eq_of_eventsOf, (tell_block lastId h).2.1]
  rfl

theorem headsTold_blank (lastId : Option String) (block : List (List UInt8)) :
    headsTold (toldFor ((behindLines lastId block).step []).2) = ((blockItem? block).bind StreamItem.head?).toList := by
  cases hempty : isEmptyEvent lastId.isSome block with
  | false =>
      rw [headsTold, (tell_blank_of_not_empty hempty).1]
      cases hitem : blockItem? block with
      | none => rfl
      | some item => cases hhead : item.head? <;> simp [hhead]
  | true =>
      obtain ⟨hfault, hnone⟩ := tell_blank_of_empty hempty
      rw [hfault, hnone]
      rfl

/-- Read to their end, lines tell the heads of their blocks without the rejected lines. -/
theorem headsTold_tell (lines : List (List UInt8)) (lastId : Option String) :
    headsTold (Gatherer.tell ⟨none, lastId⟩ lines).2 = (blocks lines).filterMap keptHead? := by
  induction lines using lines_induction generalizing lastId with
  | hopen lines hlines =>
      rw [headsTold_block hlines, blocks_of_no_blank hlines]
      rfl
  | hblock block rest hblock ih =>
      rw [tell_block_append hblock, headsTold_append, headsTold_append, headsTold_block hblock, headsTold_blank, ih,
        blocks_append hblock, List.nil_append]
      change (keptHead? block).toList ++ _ = _
      cases hhead : keptHead? block <;> simp [hhead]

end ChainHead.Stream
