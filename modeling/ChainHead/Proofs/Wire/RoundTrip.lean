import ChainHead.Beacon.Records
import ChainHead.Proofs.Json.Text
import ChainHead.Proofs.Text.Numeral

/-! Values that are written are read back. For records this is shown once, by going down their fields: the members
in front have filled their slots and the members behind fill theirs. -/

namespace ChainHead.Wire

open Json Reader

variable {α : Type}

/-- Whether a value can not go on in some bytes. -/
def endsValue : List UInt8 → Bool
  | [] => true
  | b :: _ => b == 0x2c || b == 0x5d || b == 0x7d

/-- What is written for a value is read as the value, with so many levels at least. -/
def Codec.ReadsBack (c : Codec α) (depth : Nat) (a : α) : Prop :=
  ∀ levels, depth ≤ levels → ∀ rest position, endsValue rest = true →
    c.read levels ⟨Utf8.encode (c.write a) ++ rest, position⟩ =
      .done a ⟨rest, position.behind (Utf8.encode (c.write a))⟩

theorem Codec.ReadsBack.of_reads {c : Codec α} {a : α}
    (h : ∀ levels, Reads (c.read levels) (Utf8.encode (c.write a)) a) : c.ReadsBack 0 a :=
  fun levels _ rest position _ => h levels rest position

theorem Codec.ReadsBack.decode {c : Codec α} {depth : Nat} {a : α} (h : c.ReadsBack depth a)
    (hdepth : depth ≤ levels) : c.decode (Utf8.encode (c.write a)) = .ok a := by
  have hread := h levels hdepth [] .first rfl
  rw [List.append_nil] at hread
  rw [Codec.decode, run, Cursor.start, whole, bind_done hread]
  rfl

/-! ### Strings and numbers -/

theorem encode_writeText (t : List Char) :
    Utf8.encode (writeText t) = 0x22 :: (Utf8.encode (t.flatMap escapeChar) ++ [0x22]) := by
  rw [writeText, List.cons_append, Utf8.encode_cons, Utf8.encode_append]
  rfl

theorem reads_textRead (t : String) (levels : Nat) : Reads (text.read levels) (Utf8.encode (writeText t.toList)) t := by
  refine .located ?_
  rw [encode_writeText]
  refine Reads.ahead_bind rfl ?_
  exact Reads.eat_bind (reads_text t)

theorem text_readsBack (t : String) : text.ReadsBack 0 t := .of_reads (reads_textRead t)

/-- A string is read by its form as what the form makes of its text. -/
theorem reads_readForm_text {forms : Forms α} {t : String} {a : α} (h : forms.text t = .ok a) (levels : Nat) :
    Reads (readForm forms levels) (Utf8.encode (writeText t.toList)) a := by
  refine .located ?_
  rw [encode_writeText, ← List.append_nil (Utf8.encode _ ++ [0x22])]
  refine Reads.ahead_bind rfl ?_
  refine Reads.eat_bind ((reads_text t).bind ?_)
  rw [h]
  exact Reads.pure a

theorem isEscaped_of_isDigit {c : Char} (h : c.isDigit = true) : isEscaped c = false := by
  rw [Char.isDigit, Bool.and_eq_true, decide_eq_true_eq, decide_eq_true_eq] at h
  obtain ⟨hlow, hhigh⟩ : (0x30 : UInt32) ≤ c.val ∧ c.val ≤ 0x39 := h
  simp only [UInt32.le_iff_toNat_le, UInt32.reduceToNat] at hlow hhigh
  have hquote : c ≠ '"' := by
    rintro rfl
    exact absurd hlow (by decide)
  have hslash : c ≠ '\\' := by
    rintro rfl
    exact absurd hhigh (by decide)
  have hcontrol : ¬ c.val < 0x20 := by
    simp only [UInt32.lt_iff_toNat_lt, UInt32.reduceToNat]
    omega
  simp [isEscaped, hquote, hslash, hcontrol]

theorem write_quoted (n : UInt64) :
    quoted.write n = writeText (String.ofList (Numeral.digits n.toNat)).toList := by
  rw [String.toList_ofList, writeText,
    flatMap_escapeChar fun c hc => isEscaped_of_isDigit (Numeral.isDigit_of_mem_digits hc)]
  rfl

theorem quoted_readsBack (n : UInt64) : quoted.ReadsBack 0 n := by
  refine .of_reads fun levels => ?_
  rw [write_quoted]
  refine reads_readForm_text ?_ levels
  simp only [String.toList_ofList, Numeral.read_digits]

/-! ### Records -/

namespace Fields

def full : {τ : Type} → (fs : Fields τ) → τ → fs.Slots
  | _, .nil, _ => ()
  | _, .cons _ _ _ others, (a, rest) => (some a, others.full rest)

/-- The values of all fields are read back. -/
def ReadBack (depth : Nat) : {τ : Type} → Fields τ → τ → Prop
  | _, .nil, _ => True
  | _, .cons _ codec _ others, (a, rest) => codec.ReadsBack depth a ∧ others.ReadBack depth rest

theorem finish_full {τ : Type} (fs : Fields τ) (values : τ) : fs.finish (fs.full values) = .ok values := by
  induction fs with
  | nil => rfl
  | cons name codec absence others ih =>
      obtain ⟨a, rest⟩ := values
      change (do return (a, ← others.finish (others.full rest))) = _
      rw [ih rest]
      rfl

/-- Members behind the ones in front, if there are any in front. -/
def behind (first : Bool) (members : List (List Char)) : List Char :=
  if first then separated members else members.flatMap (',' :: ·)

theorem behind_cons (first : Bool) (member : List Char) (members : List (List Char)) :
    behind first (member :: members) = (if first then [] else [',']) ++ member ++ behind false members := by
  cases first <;> simp [behind, separated]

theorem endsValue_behind (members : List (List Char)) {rest : List UInt8} (hrest : endsValue rest = true) :
    endsValue (Utf8.encode (behind false members) ++ rest) = true := by
  cases members with
  | nil => exact hrest
  | cons member members =>
      rw [behind_cons]
      rfl

theorem reads_nextKey (first : Bool) (key : String) :
    Reads (nextKey first) (Utf8.encode ((if first then [] else [',']) ++ writeText key.toList)) (some key) := by
  have hkey : Reads (some <$> Reader.text) (Utf8.encode (key.toList.flatMap escapeChar) ++ [0x22]) (some key) :=
    (reads_text key).map some
  rw [Utf8.encode_append, encode_writeText]
  cases first with
  | true =>
      refine Reads.ahead_bind rfl ?_
      exact Reads.eat_bind hkey
  | false =>
      refine Reads.ahead_bind rfl (Reads.eat_bind ?_)
      refine Reads.ahead_bind rfl ?_
      exact Reads.eat_bind hkey

theorem nextKey_end (first : Bool) (rest : List UInt8) (position : Position) :
    nextKey first ⟨0x7d :: rest, position⟩ = .done none ⟨0x7d :: rest, position⟩ := by
  cases first <;> rfl

section

variable {β σ τ : Type} {levels depth : Nat} {whole : Fields σ}

theorem readMember_of_ne {name key : String} (h : key ≠ name) {codec : Codec α} {absence : Absence α}
    {others : Fields β} (a : Option α) (slots : others.Slots) :
    (cons name codec absence others).readMember levels key (a, slots) =
      Prod.mk a <$> others.readMember levels key slots := by
  simp only [readMember, if_neg h]
  rfl

theorem readMember_of_eq (name : String) {codec : Codec α} {absence : Absence α} {others : Fields β}
    (slots : others.Slots) :
    (cons name codec absence others).readMember levels name (none, slots) = (do
      Reader.colon
      let a ← codec.read levels
      pure (some a, slots)) := by
  simp only [readMember, if_pos]

/-- A place for the slots of the last fields of a record, where the members with their names go. -/
def IsPlace (levels : Nat) (whole : Fields σ) (fs : Fields τ) (place : fs.Slots → whole.Slots) : Prop :=
  ∀ key ∈ fs.names, ∀ slots,
    whole.readMember levels key (place slots) = place <$> fs.readMember levels key slots

theorem IsPlace.of_whole (levels : Nat) (whole : Fields σ) : IsPlace levels whole whole fun slots => slots :=
  fun _ _ _ => (id_map' _).symm

/-- Behind a field that has its value, the last fields are those behind it. -/
theorem IsPlace.tail {name : String} {codec : Codec α} {absence : Absence α} {others : Fields β}
    {place : Option α × others.Slots → whole.Slots}
    (h : IsPlace levels whole (.cons name codec absence others) place) (hname : name ∉ others.names) (a : α) :
    IsPlace levels whole others fun slots => place (some a, slots) := by
  intro key hkey slots
  have hne : key ≠ name := fun heq => hname (heq ▸ hkey)
  have hmember := h key (List.mem_cons_of_mem name hkey) (some a, slots)
  rw [readMember_of_ne hne] at hmember
  exact hmember.trans (Functor.map_map (Prod.mk (some a)) place _)

theorem memberStep_field {name : String} {codec : Codec α} {absence : Absence α} {others : Fields β}
    {place : Option α × others.Slots → whole.Slots}
    (h : IsPlace levels whole (.cons name codec absence others) place) {a : α} (ha : codec.ReadsBack depth a)
    (hdepth : depth ≤ levels) (first : Bool) (slots : others.Slots) {rest : List UInt8} (position : Position)
    (hrest : endsValue rest = true) :
    memberStep levels whole (first, place (none, slots))
        ⟨Utf8.encode ((if first then [] else [',']) ++ (writeText name.toList ++ ':' :: codec.write a)) ++ rest,
          position⟩ =
      .done (.inl (false, place (some a, slots)))
        ⟨rest, position.behind
          (Utf8.encode ((if first then [] else [',']) ++ (writeText name.toList ++ ':' :: codec.write a)))⟩ := by
  have hkey := reads_nextKey first name
  have hcolon (p : Position) : (do
      Reader.colon
      let a ← codec.read levels
      pure (some a, slots) : Reader (Option α × others.Slots))
        ⟨0x3a :: (Utf8.encode (codec.write a) ++ rest), p⟩ =
      .done (some a, slots) ⟨rest, p.behind (0x3a :: Utf8.encode (codec.write a))⟩ := by
    refine (bind_done (reads_colon _ p)).trans ?_
    exact bind_done (ha levels hdepth rest _ hrest)
  have hmember (p : Position) : whole.readMember levels name (place (none, slots))
        ⟨0x3a :: (Utf8.encode (codec.write a) ++ rest), p⟩ =
      .done (place (some a, slots)) ⟨rest, p.behind (0x3a :: Utf8.encode (codec.write a))⟩ := by
    have hplace := h name List.mem_cons_self (none, slots)
    rw [readMember_of_eq] at hplace
    exact (congrFun hplace _).trans (bind_done (hcolon p))
  rw [← List.append_assoc, Utf8.encode_append, List.append_assoc, Position.behind_append, memberStep,
    bind_done (hkey _ _)]
  exact bind_done (hmember _)

/-- The members of the last fields are read one after the other, up to the end of the record. -/
theorem rounds_members (hdepth : depth ≤ levels) (fs : Fields τ) (place : fs.Slots → whole.Slots)
    (h : IsPlace levels whole fs place) (hnames : fs.names.Nodup) {values : τ} (hvalues : fs.ReadBack depth values)
    (first : Bool) (rest : List UInt8) (position : Position) :
    Rounds (memberStep levels whole) (first, place fs.blank)
      ⟨Utf8.encode (behind first (fs.writeMembers values)) ++ 0x7d :: rest, position⟩ (place (fs.full values))
      ⟨0x7d :: rest, position.behind (Utf8.encode (behind first (fs.writeMembers values)))⟩ := by
  induction fs generalizing first position with
  | nil =>
      have hnone : behind first (Fields.nil.writeMembers values) = [] := by cases first <;> rfl
      rw [hnone]
      refine .last ?_
      rw [memberStep]
      exact bind_done (nextKey_end first rest position)
  | cons name codec absence others ih =>
      obtain ⟨a, values⟩ := values
      obtain ⟨ha, hothers⟩ := hvalues
      obtain ⟨hname, hnames⟩ := List.nodup_cons.mp hnames
      rw [writeMembers, behind_cons, Utf8.encode_append, List.append_assoc, Position.behind_append]
      refine .more (memberStep_field h ha hdepth first others.blank position (endsValue_behind _ rfl)) ?_
        (ih (fun slots => place (some a, slots)) (h.tail hname a) hnames hothers false _)
      have hcolon : 0 < ':'.utf8Size := by decide
      simp only [Utf8.encode_append, Utf8.encode_cons, List.length_append, String.length_utf8EncodeChar]
      omega

end

end Fields

theorem readMembers_done {τ : Type} {levels depth : Nat} (hdepth : depth ≤ levels) {fs : Fields τ}
    (hnames : fs.names.Nodup) {values : τ} (hvalues : fs.ReadBack depth values) (rest : List UInt8)
    (position : Position) :
    fs.readMembers levels ⟨Utf8.encode (separated (fs.writeMembers values)) ++ 0x7d :: rest, position⟩ =
      .done values ⟨0x7d :: rest, position.behind (Utf8.encode (separated (fs.writeMembers values)))⟩ := by
  have hloop := loop_of_rounds (Fields.rounds_members hdepth fs _ (.of_whole levels fs) hnames hvalues true rest position)
  refine (bind_done hloop).trans ?_
  rw [Fields.finish_full]
  rfl

theorem record_readsBack {τ : Type} {name : String} {fs : Fields τ} {make : τ → α} {parts : α → τ} {depth : Nat}
    (hnames : fs.names.Nodup) {a : α} (hvalues : fs.ReadBack depth (parts a)) (hmake : make (parts a) = a) :
    (record name fs make parts).ReadsBack (depth + 1) a := by
  intro levels hlevels rest position _
  obtain ⟨inner, rfl⟩ : ∃ inner, levels = inner + 1 := ⟨levels - 1, by omega⟩
  have hwrite : Utf8.encode ((record name fs make parts).write a) =
      0x7b :: (Utf8.encode (separated (fs.writeMembers (parts a))) ++ [0x7d]) := by
    change Utf8.encode ('\x7b' :: separated (fs.writeMembers (parts a)) ++ ['\x7d']) = _
    rw [List.cons_append, Utf8.encode_cons, Utf8.encode_append]
    rfl
  have hmembers := readMembers_done (Nat.le_of_succ_le_succ hlevels) hnames hvalues rest (position.after 0x7b)
  have hinside := enclosed_done hmembers (reads_endRecord rest _)
  have hrecord := (bind_done hinside (f := fun values => pure (make values))).trans
    (congrArg (fun b => Reply.done b _) hmake)
  rw [hwrite, Position.behind, List.foldl_cons, ← Position.behind, Position.behind_append, List.cons_append,
    List.append_assoc]
  apply located_done
  rw [ahead_bind_apply rfl]
  exact hrecord

/-! ### Heads -/

theorem headEvent_readsBack (e : HeadEvent) : HeadEvent.codec.ReadsBack 1 e :=
  record_readsBack (by decide) ⟨quoted_readsBack e.slot, text_readsBack e.block, text_readsBack e.state, trivial⟩ rfl

theorem decode_write_headEvent (e : HeadEvent) :
    HeadEvent.codec.decode (Utf8.encode (HeadEvent.codec.write e)) = .ok e :=
  (headEvent_readsBack e).decode (by decide)

theorem noControl_separated {members : List (List Char)} (h : ∀ member ∈ members, NoControl member) :
    NoControl (separated members) := by
  cases members with
  | nil => exact fun _ hc => nomatch hc
  | cons member members =>
      obtain ⟨hmember, hmembers⟩ := List.forall_mem_cons.mp h
      refine hmember.append fun c hc => ?_
      obtain ⟨other, hother, hc⟩ := List.mem_flatMap.mp hc
      exact (hmembers other hother).cons (by decide) c hc

theorem noControl_write_headEvent (e : HeadEvent) : NoControl (HeadEvent.codec.write e) := by
  have hmember (name : String) {value : List Char} (h : NoControl value) :
      NoControl (writeText name.toList ++ ':' :: value) :=
    (noControl_writeText _).append (h.cons (by decide))
  have hmembers : NoControl (separated
      [writeText "slot".toList ++ ':' :: quoted.write e.slot, writeText "block".toList ++ ':' :: text.write e.block,
        writeText "state".toList ++ ':' :: text.write e.state]) := by
    apply noControl_separated
    simp only [List.forall_mem_cons]
    exact ⟨hmember _ (write_quoted e.slot ▸ noControl_writeText _), hmember _ (noControl_writeText _),
      hmember _ (noControl_writeText _), fun _ h => nomatch h⟩
  refine NoControl.append (hmembers.cons (by decide)) fun c hc => ?_
  rw [List.mem_singleton.mp hc]
  decide

end ChainHead.Wire
