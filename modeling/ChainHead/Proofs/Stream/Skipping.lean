import ChainHead.Proofs.Stream.Sessions
import Mathlib.Data.List.Basic

/-! What malformed lines and events cost. They cost nothing that stands in the lines that are read, since a
rejected line changes nothing and an empty event is dropped as a whole. But lines are read only up to a fault
before the next chunk has come, so what stands in the lines that still wait behind the last chunk is lost. -/

namespace ChainHead.Stream

/-- The head of a block of which all lines are readable. -/
def validHead? (block : List (List UInt8)) : Option HeadEvent :=
  if block.all isReadable then (blockItem? block).bind StreamItem.head? else none

/-- The heads of the blocks of which all lines are readable. -/
def validHeads (lines : List (List UInt8)) : List HeadEvent := (blocks lines).filterMap validHead?

def openBlock (lines : List (List UInt8)) : List (List UInt8) :=
  (Cut.pieces List.isEmpty lines).getLast?.getD []

/-- The lines that still wait to be read when all chunks have come. -/
def waiting (chunks : List (List UInt8)) : List (List UInt8) := (Parser.feedAll {} chunks).1.lines.done

def headsAmong (items : List StreamItem) : List HeadEvent := items.filterMap StreamItem.head?

theorem keptHead?_of_readable {block : List (List UInt8)} (h : block.all isReadable = true) :
    keptHead? block = validHead? block := by
  rw [keptHead?, validHead?, if_pos h, List.filter_eq_self.mpr (List.all_eq_true.mp h)]

theorem validHead?_eq_none {block : List (List UInt8)} (h : block.all isReadable = false) :
    validHead? block = none := by
  rw [validHead?, if_neg (Bool.eq_false_iff.mp h)]

/-- Beside the heads of valid blocks there may be some of damaged ones. -/
theorem filterMap_validHead?_sublist (blocks : List (List (List UInt8))) :
    (blocks.filterMap validHead?).Sublist (blocks.filterMap keptHead?) := by
  induction blocks with
  | nil => exact List.Sublist.slnil
  | cons block rest ih =>
      cases hreadable : block.all isReadable with
      | true =>
          rw [List.filterMap_cons, List.filterMap_cons, keptHead?_of_readable hreadable]
          cases validHead? block with
          | none => exact ih
          | some head => exact ih.cons_cons head
      | false =>
          rw [List.filterMap_cons, List.filterMap_cons, validHead?_eq_none hreadable]
          cases keptHead? block with
          | none => exact ih
          | some head => exact ih.cons head

theorem validHeads_sublist (lines : List (List UInt8)) :
    (validHeads lines).Sublist ((blocks lines).filterMap keptHead?) :=
  filterMap_validHead?_sublist (blocks lines)

/-! ### Lines that are read and lines that wait -/

theorem openBlock_of_no_blank {lines : List (List UInt8)} (h : ∀ line ∈ lines, line ≠ []) :
    openBlock lines = lines := by
  rw [openBlock, Cut.pieces_of_none fun line hline => List.isEmpty_eq_false_iff.mpr (h line hline)]
  rfl

theorem openBlock_append {block : List (List UInt8)} (h : ∀ line ∈ block, line ≠ [])
    (rest : List (List UInt8)) : openBlock (block ++ [] :: rest) = openBlock rest := by
  rw [openBlock, Cut.pieces_append rest (fun line hline => List.isEmpty_eq_false_iff.mpr (h line hline)) rfl,
    List.getLast?_cons_of_ne_nil (Cut.pieces_ne_nil _ _)]
  rfl

/-- The blocks of later lines are those that begin with the lines behind the last blank one. -/
theorem blocks_append_openBlock (front back : List (List UInt8)) :
    blocks (front ++ back) = blocks front ++ blocks (openBlock front ++ back) := by
  -- whole blocks are taken off the front, until only the open one is left of it
  induction front using lines_induction with
  | hopen lines hlines =>
      rw [blocks_of_no_blank hlines, openBlock_of_no_blank hlines, List.nil_append]
  | hblock block rest hblock ih =>
      rw [List.append_assoc, List.cons_append, blocks_append hblock, blocks_append hblock, ih,
        openBlock_append hblock, List.cons_append]

theorem validHeads_append (front back : List (List UInt8)) :
    validHeads (front ++ back) = validHeads front ++ validHeads (openBlock front ++ back) := by
  rw [validHeads, blocks_append_openBlock, List.filterMap_append]
  rfl

/-- The lines of a body are those that are read and those that wait, and what is told is what the former tell. -/
theorem exists_read (chunks : List (List UInt8)) :
    ∃ read, (cutLines chunks.flatten).1 = read ++ waiting chunks ∧
      SameTold (Parser.feedAll {} chunks).2 (Gatherer.tell {} read).2 := by
  obtain ⟨read, hread, htold⟩ := Parser.hasRead_nil.feedAll chunks
  exact ⟨read, hread.cutLines_eq, htold⟩

theorem headsAmong_bodyItems (chunks : List (List UInt8)) (ending : Ending) :
    headsAmong (bodyItems chunks ending) = headsTold (Parser.feedAll {} chunks).2 := by
  have hending : headsAmong (ending.items (Parser.feedAll {} chunks).1.ending) = [] := by
    cases ending <;> rfl
  rw [bodyItems_eq, headsAmong, List.filterMap_append]
  exact (congrArg (headsTold (Parser.feedAll {} chunks).2 ++ ·) hending).trans (List.append_nil _)

/-- The heads that a body yields are those of the lines that are read. -/
theorem headsAmong_bodyItems_of_sameTold {chunks read : List (List UInt8)}
    (h : SameTold (Parser.feedAll {} chunks).2 (Gatherer.tell {} read).2) (ending : Ending) :
    headsAmong (bodyItems chunks ending) = (blocks read).filterMap keptHead? := by
  rw [headsAmong_bodyItems, h.headsTold_eq]
  exact headsTold_tell read none

/-! ### The heads that a session yields -/

section

variable {left : Nat} {target : Http.Target} {reply : Reply} {rest : List Connection}

/-- The heads that a session yields are those of the lines that are read, with the rejected lines left out, so no
valid head among them is lost. The other valid heads of the body are those that end in the lines that wait behind
the last chunk. All valid heads are yielded if there are none of these and, as long as no damaged block brings a
head of its own, only then. -/
theorem validHeads_yielded_iff_none_waits (hspoken : target.isSpoken = true)
    (hsuccess : Http.isSuccess reply.status = true) :
    ∃ read, (cutLines reply.chunks.flatten).1 = read ++ waiting reply.chunks ∧
      validHeads (cutLines reply.chunks.flatten).1 =
        validHeads read ++ validHeads (openBlock read ++ waiting reply.chunks) ∧
      headsAmong (connect left target (.replied reply :: rest)).items =
        (blocks read).filterMap keptHead? ∧
      (validHeads read).Sublist (headsAmong (connect left target (.replied reply :: rest)).items) ∧
      (validHeads (openBlock read ++ waiting reply.chunks) = [] →
        (validHeads (cutLines reply.chunks.flatten).1).Sublist
          (headsAmong (connect left target (.replied reply :: rest)).items)) ∧
      ((∀ block ∈ blocks read, block.all isReadable = false → keptHead? block = none) →
        ((validHeads (cutLines reply.chunks.flatten).1).Sublist
            (headsAmong (connect left target (.replied reply :: rest)).items) ↔
          validHeads (openBlock read ++ waiting reply.chunks) = [])) := by
  obtain ⟨read, hlines, htold⟩ := exists_read reply.chunks
  have hyielded := headsAmong_bodyItems_of_sameTold htold reply.ending
  have hitems : headsAmong (connect left target (.replied reply :: rest)).items =
      (blocks read).filterMap keptHead? := by
    rw [connect_of_isSuccess hspoken hsuccess, ← hyielded]
    rfl
  have hparts : validHeads (cutLines reply.chunks.flatten).1 =
      validHeads read ++ validHeads (openBlock read ++ waiting reply.chunks) := by
    rw [hlines, validHeads_append]
  have henough (hnone : validHeads (openBlock read ++ waiting reply.chunks) = []) :
      (validHeads (cutLines reply.chunks.flatten).1).Sublist ((blocks read).filterMap keptHead?) := by
    rw [hparts, hnone, List.append_nil]
    exact validHeads_sublist read
  refine ⟨read, hlines, hparts, hitems, hitems ▸ validHeads_sublist read, hitems ▸ henough, fun hdamaged => ?_⟩
  rw [hitems]
  refine ⟨fun hsub => ?_, henough⟩
  have hsame : (blocks read).filterMap keptHead? = validHeads read := by
    apply List.filterMap_congr
    intro block hblock
    cases hreadable : block.all isReadable with
    | true => exact keptHead?_of_readable hreadable
    | false => rw [hdamaged block hblock hreadable, validHead?_eq_none hreadable]
  -- what is yielded is as long as the valid heads that are read, which leaves none for the lines that wait
  have hlength := hsub.length_le
  rw [hsame, hparts, List.length_append] at hlength
  exact List.eq_nil_of_length_eq_zero (by omega)

end

/-- A line that is not UTF-8, and a head behind it. -/
def damagedBody : List UInt8 := Utf8.encode "data: ".toList ++ 0xff :: Utf8.encode
  "\n\nevent: head\ndata: \x7b\"slot\":\"7\",\"block\":\"0x07\",\"state\":\"0x70\"\x7d\n\n".toList

/-- With a comment in a chunk of its own behind them, the lines that waited are read. -/
theorem validHeads_yielded_damagedBody :
    localEvents.isSpoken = true ∧ Http.isSuccess 200 = true ∧
      validHeads (cutLines (damagedBody ++ [0x3a, 0x0a])).1 = [⟨7, "0x07", "0x70"⟩] ∧
      (validHeads (cutLines (damagedBody ++ [0x3a, 0x0a])).1).Sublist
        (headsAmong (connect 16 localEvents
          [.replied { chunks := [damagedBody, [0x3a, 0x0a]] }]).items) := by
  obtain ⟨read, hlines, -, -, -, henough, -⟩ := @validHeads_yielded_iff_none_waits 16 localEvents
    { chunks := [damagedBody, [0x3a, 0x0a]] } [] isSpoken_localEvents rfl
  have hwaiting : waiting [damagedBody, [0x3a, 0x0a]] = [] := by decide +kernel
  rw [hwaiting, List.append_nil] at hlines henough
  refine ⟨isSpoken_localEvents, rfl, by decide +kernel, henough ?_⟩
  rw [← hlines]
  decide +kernel

/-- A head in the last chunk is lost if a line in front of it is rejected. -/
theorem head_behind_rejected_line_is_lost :
    validHeads (cutLines damagedBody).1 = [⟨7, "0x07", "0x70"⟩] ∧
      (connect 16 localEvents [.replied { chunks := [damagedBody] }]).items =
        [.connected, .failed (.malformedEvent (.badValue ⟨0, some 1⟩)), .failed (.stream .unfinished)] ∧
      ¬ (validHeads (cutLines damagedBody).1).Sublist
        (headsAmong (connect 16 localEvents [.replied { chunks := [damagedBody] }]).items) := by
  decide +kernel

end ChainHead.Stream
