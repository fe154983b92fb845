import ChainHead.Proofs.Text.Utf8
import ChainHead.Stream.Session
import ChainHead.Text.Cut
import Mathlib.Data.List.TakeWhile

/-! The reading of a whole body, without chunks and without anything carried from one line to the next. A body
is cut into lines, the lines into blocks that blank lines end, and a block is read off the values of its
fields: its type is the value of the last field `event`, its data are the values of the fields `data`. Nothing
else of a block has any influence. -/

namespace ChainHead.Stream

/-- Puts bytes in front of the first line, which may be the unfinished one. -/
def inFront (front : List UInt8) : List (List UInt8) × List UInt8 → List (List UInt8) × List UInt8
  | ([], rest) => ([], front ++ rest)
  | (line :: more, rest) => ((front ++ line) :: more, rest)

/-- The lines of a body, and what stands behind the end of the last one. -/
def cutLines : List UInt8 → List (List UInt8) × List UInt8
  | [] => ([], [])
  | 0x0d :: 0x0a :: rest => ([] :: (cutLines rest).1, (cutLines rest).2)
  | b :: rest =>
    if b = 0x0a ∨ b = 0x0d then ([] :: (cutLines rest).1, (cutLines rest).2)
    else inFront [b] (cutLines rest)

/-- The blocks that blank lines end. What stands behind the last blank line is not one of them. -/
def blocks (lines : List (List UInt8)) : List (List (List UInt8)) :=
  (Cut.pieces List.isEmpty lines).dropLast

/-- Whether a line is UTF-8. -/
def isReadable (line : List UInt8) : Bool := (Utf8.fault? line).isNone

def isColon (b : UInt8) : Bool := b == 0x3a

/-- What stands before the first colon of a line. -/
def fieldName (line : List UInt8) : String :=
  String.ofList (Utf8.decodeLossy (line.takeWhile (!isColon ·)))

/-- What stands behind the first colon of a line, without the one blank that may come first. -/
def fieldValue (line : List UInt8) : String :=
  String.ofList (Utf8.decodeLossy (unspaced (line.dropWhile (!isColon ·)).tail))

/-- Whether a line is a field and not a comment. -/
def isField (line : List UInt8) : Bool := fieldName line ≠ "" && fieldName line ≠ "comment"

/-- The values of the fields of one name. -/
def values (name : String) (block : List (List UInt8)) : List String :=
  (block.filter (fieldName · = name)).map fieldValue

def blockType (block : List (List UInt8)) : String := (values "event" block).getLast?.getD ""

/-- The data of a block that is about a head. -/
def headData? (block : List (List UInt8)) : Option (List String) :=
  if blockType block = headType ∧ values "data" block ≠ [] then some (values "data" block) else none

/-- What is yielded for data about a head. -/
def headItem (data : List String) : StreamItem :=
  match HeadEvent.codec.decode (Utf8.encode (String.intercalate "\n" data).toList) with
  | .ok head => .head head
  | .error fault => .failed (.decode fault)

/-- What is yielded for a block: something only if it is about a head and has data. -/
def blockItem? (block : List (List UInt8)) : Option StreamItem := (headData? block).map headItem

def identifiers (block : List (List UInt8)) : List String := (values "id" block).filter (!·.contains '\x00')

def retries (block : List (List UInt8)) : List UInt64 :=
  (values "retry" block).filterMap fun value => (Numeral.read value.toList).toOption

/-- Whether a block has fields and yet nothing at all, where it is known whether an identifier was set before. -/
def isEmptyEvent (known : Bool) (block : List (List UInt8)) : Bool :=
  block.any isField && blockType block = "" && values "data" block = [] &&
    !known && identifiers block = [] && retries block = []

/-- None of the blocks is an empty event. -/
def NoEmptyEvent (known : Bool) : List (List (List UInt8)) → Prop
  | [] => True
  | block :: rest => isEmptyEvent known block = false ∧ NoEmptyEvent (known || identifiers block ≠ []) rest

instance NoEmptyEvent.decidable :
    (known : Bool) → (blocks : List (List (List UInt8))) → Decidable (NoEmptyEvent known blocks)
  | _, [] => .isTrue trivial
  | known, block :: rest =>
    @instDecidableAnd _ _ (inferInstanceAs (Decidable (isEmptyEvent known block = false))) (decidable _ rest)

/-- All lines of a body are UTF-8, and none of its events is empty. -/
structure IsFaultless (body : List UInt8) : Prop where
  readable : (cutLines body).1.all isReadable = true
  noEmptyEvent : NoEmptyEvent false (blocks (cutLines body).1)

instance (body : List UInt8) : Decidable (IsFaultless body) :=
  decidable_of_iff (_ ∧ _) ⟨fun h => ⟨h.1, h.2⟩, fun h => ⟨h.1, h.2⟩⟩

/-- Why a stream ends where its body ends: inside of a line or not. -/
def bodyEnding (rest : List UInt8) : StreamFault := if rest = [] then .endOfBody else .unfinished

/-- What the body of a successful response yields. One that never ends has no end to tell of. -/
def reading (body : List UInt8) (ending : Ending) : List StreamItem :=
  .connected :: (blocks (cutLines body).1).filterMap blockItem? ++ ending.items (bodyEnding (cutLines body).2)

/-- A body that ends tells of its end, whether or not it breaks off there. -/
theorem Ending.items_of_ends {ending : Ending} (h : ending ≠ .never) (fault : StreamFault) :
    ending.items fault = [.failed (.stream fault)] := by
  cases ending with
  | closed => rfl
  | aborted => rfl
  | never => exact absurd rfl h

/-! ### Lines -/

theorem inFront_nil (cut : List (List UInt8) × List UInt8) : inFront [] cut = cut := by
  obtain ⟨lines, rest⟩ := cut
  cases lines <;> rfl

theorem inFront_inFront (front back : List UInt8) (cut : List (List UInt8) × List UInt8) :
    inFront front (inFront back cut) = inFront (front ++ back) cut := by
  obtain ⟨lines, rest⟩ := cut
  cases lines <;> simp [inFront]

/-- Behind a carriage return every byte but a line feed counts as if there were none. -/
theorem foldl_push_afterReturn {body : List UInt8} (h : body.head? ≠ some 0x0a)
    (done : List (List UInt8)) (tail : List UInt8) :
    (body.foldl Lines.push ⟨done, tail, true⟩).done = (body.foldl Lines.push ⟨done, tail, false⟩).done ∧
      (body.foldl Lines.push ⟨done, tail, true⟩).tail = (body.foldl Lines.push ⟨done, tail, false⟩).tail := by
  cases body with
  | nil => exact ⟨rfl, rfl⟩
  | cons b rest =>
      rw [List.head?_cons, ne_eq, Option.some.injEq] at h
      have hpush : Lines.push ⟨done, tail, true⟩ b = Lines.push ⟨done, tail, false⟩ b := by
        simp only [Lines.push, if_neg h]
      rw [List.foldl_cons, List.foldl_cons, hpush]
      exact ⟨rfl, rfl⟩

/-- Cutting byte by byte, from an unfinished line on, cuts the lines of the whole. -/
theorem foldl_push (body : List UInt8) (done : List (List UInt8)) (tail : List UInt8) :
    (body.foldl Lines.push ⟨done, tail, false⟩).done = done ++ (inFront tail.reverse (cutLines body)).1 ∧
      (body.foldl Lines.push ⟨done, tail, false⟩).tail = (inFront tail.reverse (cutLines body)).2.reverse := by
  fun_induction cutLines body generalizing done tail with
  | case1 => simp [inFront]
  | case2 rest ih =>
      have h := ih (done ++ [tail.reverse]) []
      rw [List.reverse_nil, inFront_nil] at h
      simpa [Lines.push, inFront] using h
  | case3 b rest hpair hbreak ih =>
      have h := ih (done ++ [tail.reverse]) []
      rw [List.reverse_nil, inFront_nil] at h
      rcases hbreak with rfl | rfl
      · simpa [Lines.push, inFront] using h
      · -- the carriage return stands alone, so that one was read makes no difference behind it
        have hrest : rest.head? ≠ some 0x0a := by
          intro hhead
          obtain ⟨more, rfl⟩ := List.head?_eq_some_iff.mp hhead
          exact hpair more rfl rfl
        have hreturn := foldl_push_afterReturn hrest (done ++ [tail.reverse]) []
        simpa [Lines.push, inFront, hreturn] using h
  | case4 b rest hpair hbreak ih =>
      have h := ih done (b :: tail)
      rw [not_or] at hbreak
      rw [inFront_inFront, List.foldl_cons]
      simpa [Lines.push, hbreak.1, hbreak.2] using h

/-- The lines and the unfinished one that are cut off from the begin of a body. -/
theorem done_foldl_push (body : List UInt8) : (body.foldl Lines.push {}).done = (cutLines body).1 := by
  have h := (foldl_push body [] []).1
  rwa [List.reverse_nil, inFront_nil, List.nil_append] at h

theorem tail_foldl_push (body : List UInt8) : (body.foldl Lines.push {}).tail = (cutLines body).2.reverse := by
  have h := (foldl_push body [] []).2
  rwa [List.reverse_nil, inFront_nil] at h

/-- Lines that wait in front do not matter to those that are cut off behind them. -/
theorem foldl_push_append (body : List UInt8) (front : List (List UInt8)) (lines : Lines) :
    body.foldl Lines.push { lines with done := front ++ lines.done } =
      { body.foldl Lines.push lines with done := front ++ (body.foldl Lines.push lines).done } := by
  induction body generalizing lines with
  | nil => rfl
  | cons b rest ih =>
      have hpush : Lines.push { lines with done := front ++ lines.done } b =
          { Lines.push lines b with done := front ++ (Lines.push lines b).done } := by
        simp only [Lines.push]
        split_ifs <;> simp
      rw [List.foldl_cons, List.foldl_cons, hpush, ih]

theorem done_prefix_foldl_push (body : List UInt8) (lines : Lines) :
    lines.done <+: (body.foldl Lines.push lines).done := by
  have h := foldl_push_append body lines.done { lines with done := [] }
  rw [List.append_nil] at h
  rw [h]
  exact List.prefix_append _ _

/-! ### What a line says -/

/-- A line has no colon, or it has a first one. -/
theorem colon_cases (line : List UInt8) :
    (∀ b ∈ line, isColon b = false) ∨
      ∃ name value, (∀ b ∈ name, isColon b = false) ∧ line = name ++ 0x3a :: value := by
  induction line with
  | nil => exact .inl (by simp)
  | cons b rest ih =>
      by_cases hb : isColon b = true
      · refine .inr ⟨[], rest, by simp, ?_⟩
        rw [isColon, beq_iff_eq] at hb
        rw [hb, List.nil_append]
      · rw [Bool.not_eq_true] at hb
        rcases ih with hnone | ⟨name, value, hname, rfl⟩
        · exact .inl (by simpa [hb] using hnone)
        · exact .inr ⟨b :: name, value, by simpa [hb] using hname, rfl⟩

section

variable {name value : List UInt8} (hname : ∀ b ∈ name, isColon b = false)

include hname

theorem takeWhile_name : name.takeWhile (!isColon ·) = name :=
  List.takeWhile_eq_self_iff.mpr fun b hb => by simp [hname b hb]

theorem fieldName_of_no_colon : fieldName name = String.ofList (Utf8.decodeLossy name) := by
  rw [fieldName, takeWhile_name hname]

theorem fieldValue_of_no_colon : fieldValue name = "" := by
  rw [fieldValue, List.dropWhile_eq_nil_iff.mpr fun b hb => by simp [hname b hb]]
  rfl

theorem fieldName_append : fieldName (name ++ 0x3a :: value) = String.ofList (Utf8.decodeLossy name) := by
  rw [fieldName, List.takeWhile_append_of_pos fun b hb => by simp [hname b hb]]
  simp [isColon]

theorem fieldValue_append :
    fieldValue (name ++ 0x3a :: value) = String.ofList (Utf8.decodeLossy (unspaced value)) := by
  rw [fieldValue, List.dropWhile_append_of_pos fun b hb => by simp [hname b hb]]
  simp [isColon]

theorem atColon_of_no_colon : atColon name = (name, none) := by
  induction name with
  | nil => rfl
  | cons b rest ih =>
      have hb : b ≠ 0x3a := by simpa [isColon] using hname b List.mem_cons_self
      rw [atColon, if_neg hb, ih fun d hd => hname d (List.mem_cons_of_mem b hd)]

theorem atColon_append : atColon (name ++ 0x3a :: value) = (name, some value) := by
  induction name with
  | nil => rfl
  | cons b rest ih =>
      have hb : b ≠ 0x3a := by simpa [isColon] using hname b List.mem_cons_self
      rw [List.cons_append, atColon, if_neg hb, ih fun d hd => hname d (List.mem_cons_of_mem b hd)]

end

theorem isReadable_append (name value : List UInt8) :
    isReadable (name ++ 0x3a :: value) = (isReadable name && isReadable value) := by
  rw [Bool.eq_iff_iff, Bool.and_eq_true]
  simp only [isReadable, Option.isNone_iff_eq_none]
  exact Utf8.fault?_ascii (by decide) name value

theorem isReadable_unspaced (value : List UInt8) : isReadable (unspaced value) = isReadable value := by
  unfold unspaced
  split
  · rename_i rest
    rw [Bool.eq_iff_iff]
    simp only [isReadable, Option.isNone_iff_eq_none]
    have h := Utf8.fault?_ascii (b := 0x20) (by decide) [] rest
    rw [List.nil_append] at h
    rw [h, and_iff_right (show Utf8.fault? [] = none from rfl)]
  · rfl

theorem text?_of_isReadable {blame : Utf8.Fault → EventFault} {bytes : List UInt8} (h : isReadable bytes = true) :
    text? blame bytes = .ok (String.ofList (Utf8.decodeLossy bytes)) := by
  rw [isReadable, Option.isNone_iff_eq_none] at h
  rw [text?, h]

theorem text?_of_not_isReadable (blame : Utf8.Fault → EventFault) {bytes : List UInt8}
    (h : isReadable bytes = false) : ∃ fault, text? blame bytes = .error fault := by
  rw [isReadable, Option.isNone_eq_false_iff] at h
  obtain ⟨fault, hfault⟩ := Option.isSome_iff_exists.mp h
  exact ⟨blame fault, by rw [text?, hfault]⟩

theorem ofList_decodeLossy_ne_empty {bytes : List UInt8} (h : bytes ≠ []) :
    String.ofList (Utf8.decodeLossy bytes) ≠ "" := by
  intro hempty
  apply Utf8.decodeLossy_ne_nil h
  rw [← String.toList_ofList (l := Utf8.decodeLossy bytes), hempty]
  rfl

/-- What a line says if it is UTF-8. -/
def lineOf (line : List UInt8) : Line :=
  if line = [] then .blank
  else if isField line then .field (fieldName line) (fieldValue line)
  else .comment

/-- A line with a name is read by its name and its value, and the first of the two that is broken is blamed. -/
theorem read_of_name {b : UInt8} {name : List UInt8} {rest : Option (List UInt8)} {line : List UInt8}
    (h : atColon line = (b :: name, rest)) :
    Line.read line = (do
      let name ← text? .badKey (b :: name)
      let value ← text? .badValue (unspaced (rest.getD []))
      return if name = "comment" then .comment else .field name value) := by
  rw [Line.read, h]

theorem read_of_no_name {rest line : List UInt8} (h : atColon line = ([], some rest)) :
    Line.read line = (do
      discard (text? .badValue rest)
      return .comment) := by
  rw [Line.read, h]

theorem lineOf_of_name {line : List UInt8} (hline : line ≠ []) (hname : fieldName line ≠ "") :
    lineOf line =
      if fieldName line = "comment" then .comment else .field (fieldName line) (fieldValue line) := by
  rw [lineOf, if_neg hline]
  by_cases hcomment : fieldName line = "comment" <;> simp [isField, hcomment, hname]

/-- A line that is UTF-8 is read as what its name and its value say. -/
theorem read_of_isReadable {line : List UInt8} (h : isReadable line = true) :
    Line.read line = .ok (lineOf line) := by
  rcases colon_cases line with hnone | ⟨name, value, hname, rfl⟩
  · cases line with
    | nil => rfl
    | cons b rest =>
        have hfield := fieldName_of_no_colon hnone
        have hne : fieldName (b :: rest) ≠ "" := hfield ▸ ofList_decodeLossy_ne_empty (List.cons_ne_nil b rest)
        rw [read_of_name (atColon_of_no_colon hnone), text?_of_isReadable h,
          text?_of_isReadable (show isReadable (unspaced (none.getD [])) = true from rfl),
          lineOf_of_name (List.cons_ne_nil b rest) hne, hfield, fieldValue_of_no_colon hnone]
        rfl
  · rw [isReadable_append, Bool.and_eq_true] at h
    cases name with
    | nil =>
        have hfield : isField ([] ++ 0x3a :: value) = false := by
          simp only [isField, fieldName_append hname]
          rfl
        rw [read_of_no_name (atColon_append hname), text?_of_isReadable h.2, lineOf, if_neg (by simp), hfield]
        rfl
    | cons b name =>
        have hfield : fieldName (b :: name ++ 0x3a :: value) = _ := fieldName_append hname
        have hne : fieldName (b :: name ++ 0x3a :: value) ≠ "" :=
          hfield ▸ ofList_decodeLossy_ne_empty (List.cons_ne_nil b name)
        rw [read_of_name (atColon_append hname), text?_of_isReadable h.1, Option.getD_some,
          text?_of_isReadable ((isReadable_unspaced value).trans h.2),
          lineOf_of_name (by simp) hne, hfield, fieldValue_append hname]
        rfl

theorem read_of_not_isReadable {line : List UInt8} (h : isReadable line = false) :
    ∃ fault, Line.read line = .error fault := by
  rcases colon_cases line with hnone | ⟨name, value, hname, rfl⟩
  · cases line with
    | nil => cases h
    | cons b rest =>
        obtain ⟨fault, hfault⟩ := text?_of_not_isReadable .badKey h
        exact ⟨fault, by rw [read_of_name (atColon_of_no_colon hnone), hfault]; rfl⟩
  · rw [isReadable_append] at h
    cases name with
    | nil =>
        rw [show isReadable [] = true from rfl, Bool.true_and] at h
        obtain ⟨fault, hfault⟩ := text?_of_not_isReadable .badValue h
        exact ⟨fault, by rw [read_of_no_name (atColon_append hname), hfault]; rfl⟩
    | cons b name =>
        rw [read_of_name (atColon_append hname), Option.getD_some]
        cases hkey : isReadable (b :: name) with
        | false =>
            obtain ⟨fault, hfault⟩ := text?_of_not_isReadable .badKey hkey
            exact ⟨fault, by rw [hfault]; rfl⟩
        | true =>
            rw [hkey, Bool.true_and, ← isReadable_unspaced] at h
            obtain ⟨fault, hfault⟩ := text?_of_not_isReadable .badValue h
            exact ⟨fault, by rw [text?_of_isReadable hkey, hfault]; rfl⟩

end ChainHead.Stream
