import ChainHead.Proofs.Stream.Sessions
import ChainHead.Proofs.Wire.RoundTrip

/-! Bodies that bring heads. Each head is written as an event of its own; comments may stand anywhere, and well
formed events of other types between the heads. Such a body is faultless, so a session yields its heads, and then
that it is over. -/

namespace ChainHead.Stream

/-! ### Lines that are written -/

inductive Terminator where
  | lineFeed
  | carriageReturn
  | both
deriving DecidableEq, Repr

def Terminator.bytes : Terminator → List UInt8
  | .lineFeed => [0x0a]
  | .carriageReturn => [0x0d]
  | .both => [0x0d, 0x0a]

def written (t : Terminator) (lines : List (List UInt8)) : List UInt8 := lines.flatMap (· ++ t.bytes)

def isUnbroken (bytes : List UInt8) : Bool := bytes.all fun b => b ≠ 0x0a && b ≠ 0x0d

theorem isUnbroken_cons {b : UInt8} {bytes : List UInt8} (h : isUnbroken (b :: bytes) = true) :
    b ≠ 0x0a ∧ b ≠ 0x0d ∧ isUnbroken bytes = true := by
  rw [isUnbroken, List.all_cons, Bool.and_eq_true, Bool.and_eq_true, decide_eq_true_eq, decide_eq_true_eq] at h
  exact ⟨h.1.1, h.1.2, h.2⟩

/-- The bytes of a line are put in front of the first line behind them. -/
theorem cutLines_append {line : List UInt8} (h : isUnbroken line = true) (rest : List UInt8) :
    cutLines (line ++ rest) = inFront line (cutLines rest) := by
  induction line with
  | nil => rw [List.nil_append, inFront_nil]
  | cons b line ih =>
      obtain ⟨hfeed, hreturn, hline⟩ := isUnbroken_cons h
      have hcons : cutLines (b :: (line ++ rest)) = inFront [b] (cutLines (line ++ rest)) := by
        rw [cutLines]
        · rw [if_neg (by simp [hfeed, hreturn])]
        · intro _ hb
          exact absurd hb hreturn
      rw [List.cons_append, hcons, ih hline, inFront_inFront, List.singleton_append]

theorem cutLines_bytes (t : Terminator) {rest : List UInt8}
    (h : t = .carriageReturn → rest.head? ≠ some 0x0a) :
    cutLines (t.bytes ++ rest) = ([] :: (cutLines rest).1, (cutLines rest).2) := by
  cases t with
  | lineFeed => simp [Terminator.bytes, cutLines]
  | both => simp [Terminator.bytes, cutLines]
  | carriageReturn =>
      change cutLines (0x0d :: rest) = _
      rw [cutLines]
      · simp
      · rintro more - rfl
        exact h rfl rfl

theorem head?_written {lines : List (List UInt8)} (h : ∀ line ∈ lines, isUnbroken line = true) :
    (written .carriageReturn lines).head? ≠ some 0x0a := by
  cases lines with
  | nil => simp [written]
  | cons line lines =>
      cases line with
      | nil => simp [written, Terminator.bytes]
      | cons b line =>
          have hb := (isUnbroken_cons (h (b :: line) List.mem_cons_self)).1
          simp [written, hb]

theorem cutLines_written (t : Terminator) {lines : List (List UInt8)}
    (h : ∀ line ∈ lines, isUnbroken line = true) : cutLines (written t lines) = (lines, []) := by
  induction lines with
  | nil => rfl
  | cons line lines ih =>
      have hlines : ∀ other ∈ lines, isUnbroken other = true := fun other hother =>
        h other (List.mem_cons_of_mem line hother)
      have hbytes : cutLines (t.bytes ++ written t lines) = ([] :: lines, []) := by
        rw [cutLines_bytes t, ih hlines]
        rintro rfl
        exact head?_written hlines
      rw [written, List.flatMap_cons, List.append_assoc, cutLines_append (h line List.mem_cons_self)]
      change inFront line (cutLines (t.bytes ++ written t lines)) = _
      rw [hbytes, inFront, List.append_nil]

/-! ### The lines of a head -/

/-- The line that names the type of a head. -/
def typeLine : List UInt8 := Utf8.encode "event: head".toList

def dataLine (e : HeadEvent) : List UInt8 := Utf8.encode ("data: ".toList ++ HeadEvent.codec.write e)

theorem isReadable_encode (text : List Char) : isReadable (Utf8.encode text) = true := by
  rw [isReadable, Utf8.fault?_encode]
  rfl

theorem isUnbroken_encode {text : List Char} (h : Json.NoControl text) : isUnbroken (Utf8.encode text) = true := by
  rw [isUnbroken, List.all_eq_true]
  intro b hb
  obtain ⟨c, hc, hb⟩ := List.mem_flatMap.mp hb
  have hchar := h c hc
  have hbyte := Utf8.toNat_of_mem_encodeChar hb
  simp only [Bool.and_eq_true, decide_eq_true_eq, ne_eq, ← UInt8.toNat_inj, UInt8.reduceToNat]
  omega

theorem isUnbroken_dataLine (e : HeadEvent) : isUnbroken (dataLine e) = true := by
  have hname : Json.NoControl "data: ".toList := by decide +kernel
  apply isUnbroken_encode
  exact hname.append (Wire.noControl_write_headEvent e)

theorem dataLine_eq (e : HeadEvent) :
    dataLine e = Utf8.encode "data".toList ++ 0x3a :: 0x20 :: Utf8.encode (HeadEvent.codec.write e) := by
  rw [dataLine, Utf8.encode_append]
  rfl

theorem fieldName_typeLine : fieldName typeLine = "event" := by decide +kernel

theorem fieldValue_typeLine : fieldValue typeLine = headType := by decide +kernel

theorem fieldName_dataLine (e : HeadEvent) : fieldName (dataLine e) = "data" := by
  rw [dataLine_eq, fieldName_append (by decide +kernel), Utf8.decodeLossy_encode, String.ofList_toList]

theorem fieldValue_dataLine (e : HeadEvent) :
    fieldValue (dataLine e) = String.ofList (HeadEvent.codec.write e) := by
  rw [dataLine_eq, fieldValue_append (by decide +kernel), unspaced, Utf8.decodeLossy_encode]

theorem headItem_write (e : HeadEvent) : headItem [String.ofList (HeadEvent.codec.write e)] = .head e := by
  rw [headItem, String.intercalate_singleton, String.toList_ofList, Wire.decode_write_headEvent]

/-! ### Lines that bring heads -/

structure IsComment (line : List UInt8) : Prop where
  head?_eq : line.head? = some 0x3a
  readable : isReadable line = true
  unbroken : isUnbroken line = true

/-- Lines bring heads, in their order. -/
inductive Brings : List (List UInt8) → List HeadEvent → Prop
  | nothing : Brings [] []
  | comment {line : List UInt8} {lines : List (List UInt8)} {heads : List HeadEvent} (h : IsComment line)
      (rest : Brings lines heads) : Brings (line :: lines) heads
  | head {middle back lines : List (List UInt8)} {heads : List HeadEvent} (e : HeadEvent)
      (hmiddle : ∀ line ∈ middle, IsComment line) (hback : ∀ line ∈ back, IsComment line)
      (rest : Brings lines heads) :
      Brings (typeLine :: middle ++ dataLine e :: back ++ [] :: lines) (e :: heads)
  | other {block lines : List (List UInt8)} {heads : List HeadEvent}
      (hreadable : ∀ line ∈ block, isReadable line = true) (hunbroken : ∀ line ∈ block, isUnbroken line = true)
      (hlines : ∀ line ∈ block, line ≠ []) (htype : blockType block ≠ headType)
      (hempty : isEmptyEvent false block = false) (rest : Brings lines heads) :
      Brings (block ++ [] :: lines) heads

theorem IsComment.ne_nil {line : List UInt8} (h : IsComment line) : line ≠ [] := by
  rintro rfl
  cases h.head?_eq

theorem IsComment.isField_eq {line : List UInt8} (h : IsComment line) : isField line = false := by
  obtain ⟨rest, rfl⟩ := List.head?_eq_some_iff.mp h.head?_eq
  have hname : fieldName (0x3a :: rest) = "" := @fieldName_append [] rest fun _ hb => nomatch hb
  simp [isField, hname]

theorem any_isField_of_isComment {lines : List (List UInt8)} (h : ∀ line ∈ lines, IsComment line) :
    lines.any isField = false :=
  List.any_eq_false.mpr fun line hline => by simp [(h line hline).isField_eq]

/-- Comments in front of a block change nothing of what it says. -/
theorem values_append_comments {front : List (List UInt8)} (h : ∀ line ∈ front, IsComment line) {name : String}
    (hname : isKnownName name = true) (block : List (List UInt8)) :
    values name (front ++ block) = values name block := by
  rw [values_append, values_of_no_field hname (any_isField_of_isComment h), List.nil_append]

theorem headData?_append_comments {front : List (List UInt8)} (h : ∀ line ∈ front, IsComment line)
    (block : List (List UInt8)) : headData? (front ++ block) = headData? block := by
  rw [headData?, headData?, blockType, blockType, values_append_comments h (by decide),
    values_append_comments h (by decide)]

theorem isEmptyEvent_append_comments {front : List (List UInt8)} (h : ∀ line ∈ front, IsComment line)
    (known : Bool) (block : List (List UInt8)) :
    isEmptyEvent known (front ++ block) = isEmptyEvent known block := by
  rw [isEmptyEvent, isEmptyEvent, List.any_append, any_isField_of_isComment h, Bool.false_or, blockType, blockType,
    identifiers, identifiers, retries, retries, values_append_comments h (by decide),
    values_append_comments h (by decide), values_append_comments h (by decide),
    values_append_comments h (by decide)]

theorem values_headBlock {name : String} (hname : isKnownName name = true) (e : HeadEvent)
    {middle back : List (List UInt8)} (hmiddle : ∀ line ∈ middle, IsComment line)
    (hback : ∀ line ∈ back, IsComment line) :
    values name (typeLine :: middle ++ dataLine e :: back) =
      (if "event" = name then [headType] else []) ++
        if "data" = name then [String.ofList (HeadEvent.codec.write e)] else [] := by
  have hparts : typeLine :: middle ++ dataLine e :: back = [typeLine] ++ (middle ++ ([dataLine e] ++ back)) := rfl
  rw [hparts, values_append, values_append_comments hmiddle hname, values_append,
    values_of_no_field hname (any_isField_of_isComment hback), List.append_nil, values_singleton, values_singleton,
    fieldName_typeLine, fieldValue_typeLine, fieldName_dataLine, fieldValue_dataLine]

/-- The block of a head has its data, and is no empty event. -/
theorem headBlock_eq (e : HeadEvent) {middle back : List (List UInt8)}
    (hmiddle : ∀ line ∈ middle, IsComment line) (hback : ∀ line ∈ back, IsComment line) :
    headData? (typeLine :: middle ++ dataLine e :: back) = some [String.ofList (HeadEvent.codec.write e)] ∧
      ∀ known, isEmptyEvent known (typeLine :: middle ++ dataLine e :: back) = false := by
  have htype : blockType (typeLine :: middle ++ dataLine e :: back) = headType := by
    rw [blockType, values_headBlock (by decide) e hmiddle hback]
    rfl
  have hdata : values "data" (typeLine :: middle ++ dataLine e :: back) =
      [String.ofList (HeadEvent.codec.write e)] :=
    values_headBlock (by decide) e hmiddle hback
  constructor
  · rw [headData?, htype, hdata, if_pos ⟨rfl, List.cons_ne_nil _ _⟩]
  · intro known
    rw [isEmptyEvent, htype]
    simp [headType]

theorem isEmptyEvent_of_known {block : List (List UInt8)} (h : isEmptyEvent false block = false) (known : Bool) :
    isEmptyEvent known block = false := by
  cases known with
  | false => exact h
  | true => simp [isEmptyEvent]

theorem Brings.all_isReadable {lines : List (List UInt8)} {heads : List HeadEvent} (h : Brings lines heads) :
    lines.all isReadable = true ∧ ∀ line ∈ lines, isUnbroken line = true := by
  rw [List.all_eq_true]
  induction h with
  | nothing => simp
  | comment hline _ ih =>
      exact ⟨List.forall_mem_cons.mpr ⟨hline.readable, ih.1⟩, List.forall_mem_cons.mpr ⟨hline.unbroken, ih.2⟩⟩
  | head e hmiddle hback _ ih =>
      simp only [List.cons_append, List.append_assoc, List.forall_mem_cons, List.forall_mem_append]
      exact ⟨⟨isReadable_encode _, fun line hline => (hmiddle line hline).readable, isReadable_encode _,
          fun line hline => (hback line hline).readable, rfl, ih.1⟩,
        ⟨by decide, fun line hline => (hmiddle line hline).unbroken, isUnbroken_dataLine e,
          fun line hline => (hback line hline).unbroken, rfl, ih.2⟩⟩
  | other hreadable hunbroken _ _ _ _ ih =>
      simp only [List.forall_mem_cons, List.forall_mem_append]
      exact ⟨⟨hreadable, rfl, ih.1⟩, ⟨hunbroken, rfl, ih.2⟩⟩

/-- The blocks of lines that bring heads are those of the heads and others of which nothing is yielded, where
comments may stand in front. -/
theorem Brings.blocks_eq {lines : List (List UInt8)} {heads : List HeadEvent} (h : Brings lines heads)
    {front : List (List UInt8)} (hfront : ∀ line ∈ front, IsComment line) (known : Bool) :
    (blocks (front ++ lines)).filterMap blockItem? = heads.map .head ∧
      NoEmptyEvent known (blocks (front ++ lines)) := by
  have hnonempty {comments : List (List UInt8)} (h : ∀ line ∈ comments, IsComment line) :
      ∀ line ∈ comments, line ≠ [] := fun line hline => (h line hline).ne_nil
  -- comments between two events are gathered in `front` until the block begins that they belong to
  induction h generalizing front known with
  | nothing =>
      rw [List.append_nil, blocks_of_no_blank (hnonempty hfront)]
      exact ⟨rfl, trivial⟩
  | @comment line lines heads hline _ ih =>
      rw [List.append_cons]
      refine ih (fun other hother => ?_) known
      rcases List.mem_append.mp hother with hother | hother
      · exact hfront other hother
      · exact List.mem_singleton.mp hother ▸ hline
  | @head middle back lines heads e hmiddle hback _ ih =>
      have hblock : ∀ line ∈ front ++ (typeLine :: middle ++ dataLine e :: back), line ≠ [] := by
        simp only [List.cons_append, List.forall_mem_append, List.forall_mem_cons]
        exact ⟨hnonempty hfront, by decide, hnonempty hmiddle, by simp [dataLine_eq], hnonempty hback⟩
      obtain ⟨hdata, hempty⟩ := headBlock_eq e hmiddle hback
      obtain ⟨hitems, hrest⟩ := @ih [] (fun _ h => nomatch h)
        (known || identifiers (front ++ (typeLine :: middle ++ dataLine e :: back)) ≠ [])
      rw [← List.append_assoc, blocks_append hblock]
      refine ⟨?_, ?_, hrest⟩
      · rw [List.filterMap_cons, blockItem?, headData?_append_comments hfront, hdata, Option.map_some, headItem_write]
        exact congrArg _ hitems
      · rw [isEmptyEvent_append_comments hfront, hempty]
  | @other block lines heads _ _ hlines htype hempty _ ih =>
      have hblock : ∀ line ∈ front ++ block, line ≠ [] :=
        List.forall_mem_append.mpr ⟨hnonempty hfront, hlines⟩
      have hdata : headData? block = none := by rw [headData?, if_neg fun hboth => htype hboth.1]
      obtain ⟨hitems, hrest⟩ := @ih [] (fun _ h => nomatch h) (known || identifiers (front ++ block) ≠ [])
      rw [← List.append_assoc, blocks_append hblock]
      refine ⟨?_, ?_, hrest⟩
      · rw [List.filterMap_cons, blockItem?, headData?_append_comments hfront, hdata, Option.map_none]
        exact hitems
      · rw [isEmptyEvent_append_comments hfront, isEmptyEvent_of_known hempty]

/-! ### Responses that bring heads -/

/-- A successful response brings heads and is over, in whatever way it is cut into chunks and ends. -/
structure Broadcasts (reply : Reply) (heads : List HeadEvent) : Prop where
  success : Http.isSuccess reply.status = true
  ends : reply.ending ≠ .never
  exists_lines : ∃ t lines, Brings lines heads ∧ reply.chunks.flatten = written t lines

/-- A comment, an event of another type, and a head with characters that have to be escaped. -/
def sampleLines : List (List UInt8) :=
  [[0x3a], Utf8.encode "event: block".toList, [], typeLine, dataLine ⟨7, "0x\"é", "\n"⟩, []]

/-- The lines end in a carriage return and a line feed, and the body is cut between the first two of these. -/
def sampleReply : Reply where
  chunks := [(written .both sampleLines).take 2, (written .both sampleLines).drop 2]

theorem broadcasts_sampleReply : Broadcasts sampleReply [⟨7, "0x\"é", "\n"⟩] where
  success := rfl
  ends := nofun
  exists_lines := by
    have hhead : Brings [typeLine, dataLine ⟨7, "0x\"é", "\n"⟩, []] [⟨7, "0x\"é", "\n"⟩] :=
      @Brings.head [] [] [] [] _ (fun _ h => nomatch h) (fun _ h => nomatch h) .nothing
    have hother : Brings (Utf8.encode "event: block".toList :: [] :: [typeLine, dataLine ⟨7, "0x\"é", "\n"⟩, []])
        [⟨7, "0x\"é", "\n"⟩] :=
      @Brings.other [Utf8.encode "event: block".toList] _ _ (by decide) (by decide) (by decide) (by decide +kernel)
        (by decide +kernel) hhead
    exact ⟨.both, sampleLines, .comment ⟨rfl, by decide, by decide⟩ hother, by simp [sampleReply]⟩

/-- The session of such a response yields its heads and then its end. -/
theorem Broadcasts.connect_eq {reply : Reply} {heads : List HeadEvent} (h : Broadcasts reply heads)
    {target : Http.Target} (hspoken : target.isSpoken = true) (left : Nat) (rest : List Connection) :
    connect left target (.replied reply :: rest) =
      ⟨.connected :: heads.map .head ++ [.failed (.stream .endOfBody)], false, [target], rest⟩ := by
  obtain ⟨t, lines, hbrings, hbody⟩ := h.exists_lines
  obtain ⟨hreadable, hunbroken⟩ := hbrings.all_isReadable
  obtain ⟨hitems, hempty⟩ := @Brings.blocks_eq lines heads hbrings [] (fun _ h => nomatch h) false
  rw [List.nil_append] at hitems hempty
  have hcut : cutLines reply.chunks.flatten = (lines, []) := by rw [hbody, cutLines_written t hunbroken]
  have hfaultless : IsFaultless reply.chunks.flatten :=
    ⟨by rw [hcut]; exact hreadable, by rw [hcut]; exact hempty⟩
  rw [connect_of_isSuccess hspoken h.success, bodyItems_of_isFaultless hfaultless, reading, hcut, hitems,
    Ending.items_of_ends h.ends, decide_eq_false h.ends]
  rfl

end ChainHead.Stream
