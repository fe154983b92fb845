import ChainHead.Proofs.Stream.Skipping

/-! What is left of a damaged block. Each rejected line is told as a fault, and so is a block in which nothing is left;
but the other lines of a damaged block are gathered as if the rejected ones had never been there. A damaged block is
therefore told as a head exactly if the lines that are left make one. -/

namespace ChainHead.Stream

/-! ### The faults of a body -/

/-- What is wrong with a line that can not be read. -/
def lineFault? (line : List UInt8) : Option EventFault :=
  match Line.read line with
  | .error fault => some fault
  | .ok _ => none

/-- The lines of a block that are not rejected. -/
def remainder (block : List (List UInt8)) : List (List UInt8) := block.filter isReadable

def isDamaged (block : List (List UInt8)) : Bool := block.any fun line => (lineFault? line).isSome

/-- The faults of the lines of blocks, and of the blocks in which nothing is left, where it is known whether an
identifier was set before. -/
def blockFaults : Bool → List (List (List UInt8)) → List EventFault
  | _, [] => []
  | known, block :: rest =>
    block.filterMap lineFault? ++ (if isEmptyEvent known (remainder block) then [.emptyEvent] else []) ++
      blockFaults (known || identifiers (remainder block) ≠ []) rest

/-- The faults of lines, of which the last ones may belong to a block that is not finished. -/
def lineFaults (known : Bool) (lines : List (List UInt8)) : List EventFault :=
  blockFaults known (blocks lines) ++ (openBlock lines).filterMap lineFault?

def faultsAmong (items : List StreamItem) : List EventFault :=
  items.filterMap fun
    | .failed (.malformedEvent fault) => some fault
    | _ => none

theorem isSome_lineFault? (line : List UInt8) : (lineFault? line).isSome = !isReadable line := by
  cases hreadable : isReadable line with
  | true =>
      rw [lineFault?, read_of_isReadable hreadable]
      rfl
  | false =>
      obtain ⟨fault, hfault⟩ := read_of_not_isReadable hreadable
      rw [lineFault?, hfault]
      rfl

theorem isDamaged_eq (block : List (List UInt8)) : isDamaged block = !block.all isReadable := by
  rw [isDamaged, List.not_all_eq_any_not]
  exact congrArg block.any (funext isSome_lineFault?)

/-- A line inside of a block is told as its fault, or not at all. -/
theorem faultsOf_step (g : Gatherer) {line : List UInt8} (h : line ≠ []) :
    faultsOf (toldFor (g.step line).2) = (lineFault? line).toList := by
  cases hreadable : isReadable line with
  | true =>
      have hline : lineOf line ≠ .blank := by
        rw [lineOf, if_neg h]
        split_ifs <;> simp
      rw [Gatherer.step, lineFault?, read_of_isReadable hreadable]
      cases hkind : lineOf line with
      | blank => exact absurd hkind hline
      | comment => rfl
      | field name value => rfl
  | false =>
      obtain ⟨fault, hfault⟩ := read_of_not_isReadable hreadable
      rw [Gatherer.step, lineFault?, hfault]
      rfl

theorem faultsOf_block (g : Gatherer) {block : List (List UInt8)} (h : ∀ line ∈ block, line ≠ []) :
    faultsOf (g.tell block).2 = block.filterMap lineFault? := by
  induction block generalizing g with
  | nil => rfl
  | cons line rest ih =>
      obtain ⟨hline, hrest⟩ := List.forall_mem_cons.mp h
      rw [Gatherer.tell_cons, faultsOf_append, faultsOf_step g hline, ih _ hrest]
      cases hfault : lineFault? line <;> simp [hfault]

/-- A blank line is told as a fault if nothing is left of its block. -/
theorem faultsOf_blank (lastId : Option String) (block : List (List UInt8)) :
    faultsOf (toldFor ((behindLines lastId block).step []).2) =
      if isEmptyEvent lastId.isSome block then [.emptyEvent] else [] := by
  cases hempty : isEmptyEvent lastId.isSome block with
  | true =>
      rw [(tell_blank_of_empty hempty).1]
      rfl
  | false =>
      refine List.filterMap_eq_nil_iff.mpr fun told htold => ?_
      cases told with
      | ok event => rfl
      | error fault => cases (tell_blank_of_not_empty hempty).2 _ htold

/-- Read to their end, lines tell their faults, whatever was gathered before. -/
theorem faultsOf_tell (lines : List (List UInt8)) (lastId : Option String) :
    faultsOf (Gatherer.tell ⟨none, lastId⟩ lines).2 = lineFaults lastId.isSome lines := by
  induction lines using lines_induction generalizing lastId with
  | hopen lines hlines =>
      rw [faultsOf_block _ hlines, lineFaults, blocks_of_no_blank hlines, openBlock_of_no_blank hlines]
      rfl
  | hblock block rest hblock ih =>
      rw [tell_block_append hblock, faultsOf_append, faultsOf_append, faultsOf_block _ hblock, faultsOf_blank, ih,
        isSome_getLast?_or, lineFaults, lineFaults, blocks_append hblock, openBlock_append hblock, blockFaults,
        List.append_assoc _ (blockFaults _ _)]
      rfl

/-- The faults among the items are those that were told. -/
theorem faultsAmong_items (told : List Told) : faultsAmong (told.filterMap item?) = faultsOf told := by
  rw [faultsAmong, List.filterMap_filterMap, faultsOf]
  refine List.filterMap_congr fun t _ => ?_
  cases t with
  | error fault => rfl
  | ok event =>
      rw [item?]
      split_ifs
      · cases HeadEvent.codec.decode (Utf8.encode event.data.toList) <;> rfl
      · rfl

theorem faultsAmong_bodyItems (chunks : List (List UInt8)) (ending : Ending) :
    faultsAmong (bodyItems chunks ending) = faultsOf (Parser.feedAll {} chunks).2 := by
  have hending : faultsAmong (ending.items (Parser.feedAll {} chunks).1.ending) = [] := by
    cases ending <;> rfl
  rw [bodyItems_eq, faultsAmong, List.filterMap_append, ← faultsAmong, ← faultsAmong, hending, faultsAmong_items,
    List.append_nil]

/-! ### Heads of damaged blocks -/

/-- A block is told as a head exactly if the last type that is left says so and the data that are left decode. -/
theorem keptHead?_eq_some_iff {block : List (List UInt8)} {head : HeadEvent} :
    keptHead? block = some head ↔
      blockType (remainder block) = headType ∧ values "data" (remainder block) ≠ [] ∧
        HeadEvent.codec.decode
          (Utf8.encode (String.intercalate "\n" (values "data" (remainder block))).toList) = .ok head := by
  have hitem (data : List String) : (headItem data).head? = some head ↔
      HeadEvent.codec.decode (Utf8.encode (String.intercalate "\n" data).toList) = .ok head := by
    rw [headItem]
    cases HeadEvent.codec.decode (Utf8.encode (String.intercalate "\n" data).toList) <;> simp [StreamItem.head?]
  rw [keptHead?, blockItem?, headData?, ← remainder]
  split_ifs with hdata
  · rw [Option.map_some, Option.bind_some, hitem]
    exact ⟨fun h => ⟨hdata.1, hdata.2, h⟩, fun h => h.2.2⟩
  · constructor
    · intro h
      cases h
    · exact fun h => absurd ⟨h.1, h.2.1⟩ hdata

/-- Only heads of valid blocks are told exactly if nothing that is left of a damaged block makes a head. -/
theorem filterMap_keptHead?_eq_iff (blocks : List (List (List UInt8))) :
    blocks.filterMap keptHead? = blocks.filterMap validHead? ↔
      ∀ block ∈ blocks, isDamaged block = true → keptHead? block = none := by
  induction blocks with
  | nil => simp
  | cons block rest ih =>
      rw [List.forall_mem_cons, ← ih, List.filterMap_cons, List.filterMap_cons, isDamaged_eq]
      cases hreadable : block.all isReadable with
      | true =>
          rw [keptHead?_of_readable hreadable]
          cases validHead? block <;> simp
      | false =>
          rw [validHead?_eq_none hreadable]
          cases keptHead? block with
          | none => simp
          | some head =>
              -- the heads of the rest are at least those of its valid blocks, so one more is too many
              have hlength := (filterMap_validHead?_sublist rest).length_le
              refine ⟨fun h => ?_, fun h => nomatch h.1 rfl⟩
              have hmore : (rest.filterMap keptHead?).length + 1 = (rest.filterMap validHead?).length :=
                congrArg List.length h
              omega

section

variable {left : Nat} {target : Http.Target} {reply : Reply} {rest : List Connection}

/-- Of the lines that are read, every rejected one is told as a fault, and so is every block in which nothing is left.
A block of which nothing is left yields no head. Every other block yields the head that its lines without the rejected
ones make, if they make one; so the heads that are yielded are those of undamaged blocks exactly if there is no damaged
block of which the last type that is left says that it is about a head and the data that are left decode. -/
theorem damaged_blocks_yield_what_is_left (hspoken : target.isSpoken = true)
    (hsuccess : Http.isSuccess reply.status = true) :
    ∃ read, (cutLines reply.chunks.flatten).1 = read ++ waiting reply.chunks ∧
      faultsAmong (connect left target (.replied reply :: rest)).items = lineFaults false read ∧
      headsAmong (connect left target (.replied reply :: rest)).items = (blocks read).filterMap keptHead? ∧
      (∀ known block, isEmptyEvent known (remainder block) = true → keptHead? block = none) ∧
      (∀ block head, keptHead? block = some head ↔
        blockType (remainder block) = headType ∧ values "data" (remainder block) ≠ [] ∧
          HeadEvent.codec.decode
            (Utf8.encode (String.intercalate "\n" (values "data" (remainder block))).toList) = .ok head) ∧
      (headsAmong (connect left target (.replied reply :: rest)).items = validHeads read ↔
        ∀ block ∈ blocks read, isDamaged block = true → keptHead? block = none) := by
  obtain ⟨read, hlines, htold⟩ := exists_read reply.chunks
  have hitems : (connect left target (.replied reply :: rest)).items =
      .connected :: bodyItems reply.chunks reply.ending := by
    rw [connect_of_isSuccess hspoken hsuccess]
  have hfaults : faultsAmong (connect left target (.replied reply :: rest)).items = lineFaults false read := by
    calc faultsAmong (connect left target (.replied reply :: rest)).items
        = faultsAmong (bodyItems reply.chunks reply.ending) := by rw [hitems]; rfl
      _ = faultsOf (Gatherer.tell {} read).2 := by rw [faultsAmong_bodyItems, htold.faults_eq]
      _ = lineFaults false read := faultsOf_tell read none
  have hheads : headsAmong (connect left target (.replied reply :: rest)).items =
      (blocks read).filterMap keptHead? := by
    rw [hitems, ← headsAmong_bodyItems_of_sameTold htold reply.ending]
    rfl
  refine ⟨read, hlines, hfaults, hheads, fun known block hempty => ?_, fun block head => keptHead?_eq_some_iff, ?_⟩
  · have hnone : values "data" (remainder block) = [] := by
      simp only [isEmptyEvent, Bool.and_eq_true, decide_eq_true_eq] at hempty
      exact hempty.1.1.1.2
    rw [keptHead?, ← remainder, blockItem?_of_no_data hnone]
    rfl
  · rw [hheads, validHeads]
    exact filterMap_keptHead?_eq_iff (blocks read)

end

/-- A head with a line in it that is not UTF-8. -/
def damagedHead : List UInt8 := Utf8.encode "event: head\ndata: ".toList ++ 0xff :: Utf8.encode
  "\ndata: \x7b\"slot\":\"7\",\"block\":\"0x07\",\"state\":\"0x70\"\x7d\n\n".toList

/-- A damaged block that brings no head, with a head behind it, in two chunks. -/
theorem damaged_blocks_yield_what_is_left_skipped :
    localEvents.isSpoken = true ∧ Http.isSuccess 200 = true ∧
      headsAmong (connect 16 localEvents
        [.replied { chunks := [damagedBody, [0x3a, 0x0a]] }]).items = [⟨7, "0x07", "0x70"⟩] := by
  obtain ⟨read, hlines, -, -, -, -, hvalid⟩ := @damaged_blocks_yield_what_is_left 16 localEvents
    { chunks := [damagedBody, [0x3a, 0x0a]] } [] isSpoken_localEvents rfl
  have hwaiting : waiting [damagedBody, [0x3a, 0x0a]] = [] := by decide +kernel
  rw [hwaiting, List.append_nil] at hlines
  refine ⟨isSpoken_localEvents, rfl, (hvalid.mpr ?_).trans ?_⟩
  · rw [← hlines]
    decide +kernel
  · rw [← hlines]
    decide +kernel

/-- A head is put together from what is left of a block of which one line is rejected. -/
theorem head_of_damaged_block_is_yielded :
    (∃ block ∈ blocks (cutLines damagedHead).1, isDamaged block = true) ∧ validHeads (cutLines damagedHead).1 = [] ∧
      (connect 16 localEvents
          [.replied { chunks := [damagedHead.take 20, damagedHead.drop 20] }]).items =
        [.connected, .failed (.malformedEvent (.badValue ⟨0, some 1⟩)), .head ⟨7, "0x07", "0x70"⟩,
          .failed (.stream .endOfBody)] ∧
      ¬∀ block ∈ blocks (cutLines damagedHead).1, isDamaged block = true → keptHead? block = none := by
  decide +kernel

end ChainHead.Stream
