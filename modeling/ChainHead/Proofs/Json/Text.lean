import ChainHead.Proofs.Json.Reads
import ChainHead.Proofs.Text.Utf8
import ChainHead.Text.Cut

/-! Strings that are written are read back. A text is parted at the characters that are written as escapes: what
stands between two of them is a run of plain bytes, and an escape takes one round of the reader. -/

namespace ChainHead.Json

/-- Whether a character is written as an escape. -/
def isEscaped (c : Char) : Bool := c = '"' || c = '\\' || c.val < 0x20

theorem escapeChar_of_not_isEscaped {c : Char} (h : isEscaped c = false) : escapeChar c = [c] := by
  simp only [isEscaped, Bool.or_eq_false_iff, decide_eq_false_iff_not] at h
  obtain ⟨⟨hquote, hslash⟩, hcontrol⟩ := h
  have hne {d : Char} (hd : d.val < 0x20) : c ≠ d := by
    rintro rfl
    exact hcontrol hd
  have hval {v : UInt32} (hv : v < 0x20) : c.val ≠ v := by
    rintro rfl
    exact hcontrol hv
  rw [escapeChar, if_neg hquote, if_neg hslash, if_neg (hval (by decide)), if_neg (hval (by decide)),
    if_neg (hne (by decide)), if_neg (hne (by decide)), if_neg (hne (by decide)), if_neg hcontrol]

/-- No byte of a character that stands for itself ends a run. -/
theorem isPlain_of_mem_encodeChar {c : Char} (h : isEscaped c = false) {b : UInt8}
    (hb : b ∈ String.utf8EncodeChar c) : Reader.isPlain b = true := by
  simp only [isEscaped, Bool.or_eq_false_iff, decide_eq_false_iff_not] at h
  obtain ⟨⟨hquote, hslash⟩, hcontrol⟩ := h
  have hquote' : c.val.toNat ≠ 0x22 := fun hc => hquote (Char.ext (UInt32.toNat_inj.mp hc))
  have hslash' : c.val.toNat ≠ 0x5c := fun hc => hslash (Char.ext (UInt32.toNat_inj.mp hc))
  simp only [UInt32.lt_iff_toNat_lt, UInt32.reduceToNat] at hcontrol
  have hbyte := Utf8.toNat_of_mem_encodeChar hb
  simp only [Reader.isPlain, Bool.and_eq_true, bne_iff_ne, decide_eq_true_eq, UInt8.le_iff_toNat_le, ne_eq,
    ← UInt8.toNat_inj, UInt8.reduceToNat]
  omega

theorem isPlain_of_mem_encode {run : List Char} (h : ∀ c ∈ run, isEscaped c = false) {b : UInt8}
    (hb : b ∈ Utf8.encode run) : Reader.isPlain b = true := by
  rw [Utf8.encode, List.mem_flatMap] at hb
  obtain ⟨c, hc, hb⟩ := hb
  exact isPlain_of_mem_encodeChar (h c hc) hb

theorem flatMap_escapeChar {run : List Char} (h : ∀ c ∈ run, isEscaped c = false) :
    run.flatMap escapeChar = run := by
  induction run with
  | nil => rfl
  | cons c run ih =>
      rw [List.flatMap_cons, escapeChar_of_not_isEscaped (h c List.mem_cons_self),
        ih fun d hd => h d (List.mem_cons_of_mem c hd)]
      rfl

def NoControl (text : List Char) : Prop := ∀ c ∈ text, 0x20 ≤ c.val.toNat

-- Looked for without a name, an instance may go through all characters that there are.
instance (text : List Char) : Decidable (NoControl text) :=
  List.decidableBAll (fun c : Char => 0x20 ≤ c.val.toNat) text

theorem NoControl.append {front back : List Char} (hfront : NoControl front) (hback : NoControl back) :
    NoControl (front ++ back) := by
  intro c hc
  rcases List.mem_append.mp hc with hc | hc
  · exact hfront c hc
  · exact hback c hc

theorem NoControl.cons {c : Char} (hc : 0x20 ≤ c.val.toNat) {text : List Char} (h : NoControl text) :
    NoControl (c :: text) :=
  List.forall_mem_cons.mpr ⟨hc, h⟩

theorem noControl_lowHex (n : Nat) : 0x20 ≤ (lowHex n).val.toNat := by
  have hdigits : ∀ d < 16, 0x20 ≤ (Nat.digitChar d).val.toNat := by decide
  exact hdigits (n % 16) (Nat.mod_lt n (by decide))

theorem noControl_escapeChar (c : Char) : NoControl (escapeChar c) := by
  have hnil : NoControl [] := fun _ hc => nomatch hc
  rw [escapeChar]
  split_ifs with _ _ _ _ _ _ _ hcontrol
  iterate 7 · decide
  · have hmark : NoControl ['\\', 'u', '0', '0'] := by decide
    exact hmark.append (.cons (noControl_lowHex _) (.cons (noControl_lowHex _) hnil))
  · rw [UInt32.lt_iff_toNat_lt, Nat.not_lt] at hcontrol
    exact .cons hcontrol hnil

theorem noControl_writeText (text : List Char) : NoControl (writeText text) := by
  intro d hd
  rw [writeText, List.cons_append, List.mem_cons, List.mem_append, List.mem_singleton, List.mem_flatMap] at hd
  rcases hd with rfl | ⟨c, -, hc⟩ | rfl
  · decide
  · exact noControl_escapeChar c d hc
  · decide

namespace Reader

/-! ### Escapes -/

theorem reads_hexUnit {a b c d : UInt8} {n : Nat} (h : hexUnit? a b c d = some n) :
    Reads hexUnit [a, b, c, d] n := by
  intro rest position
  simp only [hexUnit, List.cons_append, List.nil_append, h]
  rfl

theorem reads_numberedEscape {a b c d : UInt8} {n : Nat} (h : hexUnit? a b c d = some n) (hn : n < 0xd800) :
    Reads numberedEscape [a, b, c, d] (Char.ofNat n) := by
  rw [numberedEscape, ← List.append_nil [a, b, c, d]]
  refine (reads_hexUnit h).bind ?_
  rw [if_neg (by simp; omega), if_neg (by simp; omega)]
  exact Reads.pure _

def hexByte (n : Nat) : UInt8 := (lowHex n).toNat.toUInt8

theorem encode_lowHex : ∀ n < 0x20, Utf8.encode ['\\', 'u', '0', '0', lowHex (n / 16), lowHex n] =
    [0x5c, 0x75, 0x30, 0x30, hexByte (n / 16), hexByte n] := by decide

theorem hexUnit?_hexByte : ∀ n < 0x20, hexUnit? 0x30 0x30 (hexByte (n / 16)) (hexByte n) = some n := by decide

theorem reads_letterEscape {b : UInt8} {c : Char} (hb : b ≠ 0x75) (h : letterEscape? b = some c) :
    Reads escape [b] c := by
  rw [escape]
  apply Reads.next_bind
  split
  · rename_i heq
    cases heq
  · rename_i heq
    cases heq
    exact absurd rfl hb
  · rename_i heq
    cases heq
    rw [h]
    exact Reads.pure c

/-- Behind its backslash an escape is read as the character that it was written for. -/
theorem exists_reads_escape {c : Char} (h : isEscaped c = true) :
    ∃ bytes, Utf8.encode (escapeChar c) = 0x5c :: bytes ∧ Reads escape bytes c := by
  have hletter (b : UInt8) (d : Char) (hb : b ≠ 0x75) (hd : letterEscape? b = some d) (hc : c = d)
      (hencode : Utf8.encode (escapeChar d) = [0x5c, b]) :
      ∃ bytes, Utf8.encode (escapeChar c) = 0x5c :: bytes ∧ Reads escape bytes c :=
    ⟨[b], hc ▸ hencode, hc ▸ reads_letterEscape hb hd⟩
  by_cases hquote : c = '"'
  · exact hletter 0x22 _ (by decide) rfl hquote rfl
  by_cases hslash : c = '\\'
  · exact hletter 0x5c _ (by decide) rfl hslash rfl
  by_cases hback : c.val = 0x08
  · exact hletter 0x62 '\x08' (by decide) rfl (Char.ext hback) rfl
  by_cases hfeed : c.val = 0x0c
  · exact hletter 0x66 '\x0c' (by decide) rfl (Char.ext hfeed) rfl
  by_cases hline : c = '\n'
  · exact hletter 0x6e _ (by decide) rfl hline rfl
  by_cases hreturn : c = '\r'
  · exact hletter 0x72 _ (by decide) rfl hreturn rfl
  by_cases htab : c = '\t'
  · exact hletter 0x74 _ (by decide) rfl htab rfl
  have hcontrol : c.val < 0x20 := by simpa [isEscaped, hquote, hslash] using h
  have hsmall : c.toNat < 0x20 := UInt32.lt_iff_toNat_lt.mp hcontrol
  refine ⟨[0x75, 0x30, 0x30, hexByte (c.toNat / 16), hexByte c.toNat], ?_, ?_⟩
  · rw [escapeChar, if_neg hquote, if_neg hslash, if_neg hback, if_neg hfeed, if_neg hline, if_neg hreturn,
      if_neg htab, if_pos hcontrol, encode_lowHex _ hsmall]
  · have hread := reads_numberedEscape (hexUnit?_hexByte c.toNat hsmall) (by omega)
    rw [Char.ofNat_toNat] at hread
    exact Reads.next_bind hread

/-! ### Runs and rounds -/

theorem plainFrom_append {run : List UInt8} (hrun : ∀ b ∈ run, isPlain b = true) {b : UInt8}
    (hb : isPlain b = false) (rest : List UInt8) (position : Position) :
    plainFrom position (run ++ b :: rest) = (run, ⟨b :: rest, position.behind run⟩) := by
  induction run generalizing position with
  | nil =>
      rw [List.nil_append, plainFrom, hb]
      rfl
  | cons a run ih =>
      rw [List.cons_append, plainFrom, if_pos (hrun a List.mem_cons_self),
        ih (fun d hd => hrun d (List.mem_cons_of_mem a hd))]
      rfl

theorem decodeRun_encode (start : Position) (run : List Char) : decodeRun start (Utf8.encode run) = pure run := by
  rw [decodeRun, Utf8.fault?_encode, Utf8.decode?_encode]

section

variable {run : List Char} (hrun : ∀ c ∈ run, isEscaped c = false) (seen : List Char)

include hrun

theorem plainFrom_encode_append {b : UInt8} (hb : isPlain b = false) (rest : List UInt8) (position : Position) :
    plainFrom position (Utf8.encode run ++ b :: rest) =
      (Utf8.encode run, ⟨b :: rest, position.behind (Utf8.encode run)⟩) :=
  plainFrom_append (fun _ hd => isPlain_of_mem_encode hrun hd) hb rest position

theorem reads_textStep_quote :
    Reads (textStep seen) (Utf8.encode run ++ [0x22]) (.inr (seen.reverse ++ run)) := by
  intro rest position
  rw [List.append_assoc, List.singleton_append, textStep, plainFrom_encode_append hrun rfl]
  simp only [decodeRun_encode, Position.behind_append]
  rfl

theorem reads_textStep_escape {c : Char} {bytes : List UInt8} (hc : Reads escape bytes c) :
    Reads (textStep seen) (Utf8.encode run ++ 0x5c :: bytes) (.inl (c :: (run.reverse ++ seen))) := by
  intro rest position
  rw [List.append_assoc, List.cons_append, textStep, plainFrom_encode_append hrun rfl]
  simp only [decodeRun_encode, Position.behind_append]
  have hround : Reads (next >>= fun _ => escape >>= fun d => pure (.inl (d :: (run.reverse ++ seen))))
      (0x5c :: bytes) (.inl (c :: (run.reverse ++ seen)) : List Char ⊕ List Char) := by
    rw [← List.append_nil bytes]
    exact Reads.next_bind (hc.bind (Reads.pure _))
  exact hround rest (position.behind (Utf8.encode run))

end

theorem rounds_text (text seen : List Char) (rest : List UInt8) (position : Position) :
    Rounds textStep seen ⟨Utf8.encode (text.flatMap escapeChar) ++ [0x22] ++ rest, position⟩ (seen.reverse ++ text)
      ⟨rest, position.behind (Utf8.encode (text.flatMap escapeChar) ++ [0x22])⟩ := by
  induction text using @Cut.induction Char isEscaped generalizing seen position with
  | whole run hrun =>
      rw [flatMap_escapeChar hrun]
      exact .last (reads_textStep_quote hrun seen rest position)
  | parted run c more hrun hc ih =>
      obtain ⟨bytes, hbytes, hread⟩ := exists_reads_escape hc
      have hround := reads_textStep_escape hrun seen hread
      have hmore := ih (c :: (run.reverse ++ seen)) (position.behind (Utf8.encode run ++ 0x5c :: bytes))
      rw [List.flatMap_append, List.flatMap_cons, flatMap_escapeChar hrun, Utf8.encode_append,
        Utf8.encode_append, hbytes]
      have hseen : seen.reverse ++ (run ++ c :: more) = (c :: (run.reverse ++ seen)).reverse ++ more := by simp
      rw [hseen, show Utf8.encode run ++ (0x5c :: bytes ++ Utf8.encode (more.flatMap escapeChar)) ++ [0x22] =
        (Utf8.encode run ++ 0x5c :: bytes) ++ (Utf8.encode (more.flatMap escapeChar) ++ [0x22]) by simp,
        Position.behind_append, List.append_assoc]
      exact .of_reads hround (by simp) hmore

/-- Behind its opening quote a string is read as the text that it was written for. -/
theorem reads_text (t : String) : Reads text (Utf8.encode (t.toList.flatMap escapeChar) ++ [0x22]) t := by
  intro rest position
  have hloop := loop_of_rounds (rounds_text t.toList [] rest position)
  rw [text, bind_done hloop, List.reverse_nil, List.nil_append, String.ofList_toList]
  rfl

end Reader

end ChainHead.Json
