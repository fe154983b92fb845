import ChainHead.Json.Skip
import ChainHead.Proofs.Json.Takes

/-! Strings are read as the texts that they stand for, and one that stands for none is refused. Passing over a string
asks for the grammar only. -/

namespace ChainHead.Json

/-! ### Strings that stand for a text -/

theorem Spells.run_append {run : List Char} (hrun : ∀ c ∈ run, isEscaped c = false) {raw : List UInt8}
    {text : List Char} (h : Spells raw text) : Spells (Utf8.encode run ++ raw) (run ++ text) := by
  induction run with
  | nil => exact h
  | cons c run ih =>
      obtain ⟨hc, hrun⟩ := List.forall_mem_cons.mp hrun
      rw [Utf8.encode_cons, List.append_assoc]
      exact .plain hc (ih hrun)

/-- Every character of a text can stand in a string as it is. -/
def Unescaped (text : List Char) : Prop := ∀ c ∈ text, isEscaped c = false

instance (text : List Char) : Decidable (Unescaped text) := List.decidableBAll (fun c => isEscaped c = false) text

theorem spells_encode {text : List Char} (h : Unescaped text) : Spells (Utf8.encode text) text := by
  have hspells := Spells.run_append h .nil
  rwa [List.append_nil, List.append_nil] at hspells

/-- A character stands for itself as it is written, escaped or not. -/
theorem Spells.escapeChar_append (c : Char) {raw : List UInt8} {text : List Char} (h : Spells raw text) :
    Spells (Utf8.encode (escapeChar c) ++ raw) (c :: text) := by
  have hletter (b : UInt8) (d : Char) (hd : Reader.letterEscape? b = some d) (hc : c = d)
      (hencode : Utf8.encode (escapeChar d) = [0x5c, b]) : Spells (Utf8.encode (escapeChar c) ++ raw) (c :: text) := by
    subst hc
    rw [hencode]
    exact .letter hd h
  by_cases hquote : c = '"'
  · exact hletter 0x22 _ rfl hquote rfl
  by_cases hslash : c = '\\'
  · exact hletter 0x5c _ rfl hslash rfl
  by_cases hback : c.val = 0x08
  · exact hletter 0x62 '\x08' rfl (Char.ext hback) rfl
  by_cases hfeed : c.val = 0x0c
  · exact hletter 0x66 '\x0c' rfl (Char.ext hfeed) rfl
  by_cases hline : c = '\n'
  · exact hletter 0x6e _ rfl hline rfl
  by_cases hreturn : c = '\r'
  · exact hletter 0x72 _ rfl hreturn rfl
  by_cases htab : c = '\t'
  · exact hletter 0x74 _ rfl htab rfl
  by_cases hcontrol : c.val < 0x20
  · have hsmall : c.toNat < 0x20 := UInt32.lt_iff_toNat_lt.mp hcontrol
    have hunit := Spells.unit (Reader.hexUnit?_hexByte c.toNat hsmall) (.inl (by omega)) h
    rw [Char.ofNat_toNat] at hunit
    rw [escapeChar, if_neg hquote, if_neg hslash, if_neg hback, if_neg hfeed, if_neg hline, if_neg hreturn,
      if_neg htab, if_pos hcontrol, Reader.encode_lowHex _ hsmall]
    exact hunit
  · have hplain : isEscaped c = false := by simp [isEscaped, hquote, hslash, hcontrol]
    rw [escapeChar_of_not_isEscaped hplain, Utf8.encode_cons, Utf8.encode_nil, List.append_nil]
    exact .plain hplain h

/-- A text that is written stands for itself. -/
theorem spells_flatMap_escapeChar (text : List Char) : Spells (Utf8.encode (text.flatMap escapeChar)) text := by
  induction text with
  | nil => exact .nil
  | cons c text ih =>
      rw [List.flatMap_cons, Utf8.encode_append]
      exact ih.escapeChar_append c

/-- What stands for a text is a text of the grammar. -/
theorem Spells.isText {raw : List UInt8} {text : List Char} (h : Spells raw text) : IsText raw := by
  induction h with
  | nil => exact .nil
  | plain hc _ ih => exact isText_append (fun _ hb => isPlain_of_mem_encodeChar hc hb) ih
  | letter hc _ ih => exact .letter (by rw [hc]; rfl) ih
  | unit hn _ _ ih => exact .unit (by rw [hn]; rfl) ih
  | pair hhigh hlow _ _ _ ih => exact .unit (by rw [hhigh]; rfl) (.unit (by rw [hlow]; rfl) ih)

/-- The string of a text that needs no escapes. -/
def bareText (t : List Char) : List UInt8 := stringText (Utf8.encode t)

theorem isValue_bareText {t : List Char} (h : Unescaped t) : IsValue (bareText t) :=
  .text (spells_encode h).isText

theorem encode_quoted (t : List Char) : Utf8.encode ('"' :: t ++ ['"']) = bareText t := by
  rw [List.cons_append, Utf8.encode_cons, Utf8.encode_append]
  rfl

/-- A member without blanks, with a key that needs no escapes. -/
def Member.bare (key : String) (value : List UInt8) (h : Unescaped key.toList) : Member :=
  ⟨[], Utf8.encode key.toList, [], .bare value, blanks_nil, (spells_encode h).isText, blanks_nil⟩

/-- A member without blanks, as it is written. -/
def Member.written (key : String) (value : List UInt8) : Member :=
  ⟨[], Utf8.encode (key.toList.flatMap escapeChar), [], .bare value, blanks_nil,
    (spells_flatMap_escapeChar key.toList).isText, blanks_nil⟩

/-- A record without blanks, as it is written for values with their names. -/
def writtenRecord (parts : List (String × List UInt8)) : List UInt8 :=
  recordText [] (parts.map fun m => .written m.1 m.2)

theorem isEscaped_of_isPlain {c : Char} (h : ∀ b ∈ String.utf8EncodeChar c, Reader.isPlain b = true) :
    isEscaped c = false := by
  have hsmall (hc : c.val.toNat < 0x80) : Reader.isPlain (.ofNat c.val.toNat) = true := by
    apply h
    rw [String.utf8EncodeChar, if_pos (by omega)]
    exact List.mem_singleton_self _
  rw [isEscaped, Bool.or_eq_false_iff, Bool.or_eq_false_iff, decide_eq_false_iff_not, decide_eq_false_iff_not,
    decide_eq_false_iff_not]
  refine ⟨⟨?_, ?_⟩, ?_⟩
  · rintro rfl
    exact absurd (hsmall (by decide)) (by decide)
  · rintro rfl
    exact absurd (hsmall (by decide)) (by decide)
  · intro hcontrol
    simp only [UInt32.lt_iff_toNat_lt, UInt32.reduceToNat] at hcontrol
    have hplain := hsmall (by omega)
    simp only [Reader.isPlain, Bool.and_eq_true, decide_eq_true_eq, UInt8.le_iff_toNat_le, UInt8.reduceToNat] at hplain
    rw [UInt8.toNat_ofNat_of_lt' (show c.val.toNat < 256 by omega)] at hplain
    omega

/-- A run of plain bytes stands for the characters that it is decoded to. -/
theorem spells_of_decode? {run : List UInt8} (hrun : ∀ b ∈ run, Reader.isPlain b = true) {front : List Char}
    (hdecode : Utf8.decode? run = some front) {raw : List UInt8} {text : List Char} (h : Spells raw text) :
    Spells (run ++ raw) (front ++ text) := by
  obtain rfl := Utf8.decode?_eq_some_iff.mp hdecode
  refine .run_append (fun c hc => isEscaped_of_isPlain fun b hb => hrun b ?_) h
  exact List.mem_flatMap.mpr ⟨c, hc, hb⟩

namespace Reader

theorem reads_unitEscape {a b c d : UInt8} {n : Nat} (hn : hexUnit? a b c d = some n) (h : n < 0xd800 ∨ 0xdfff < n) :
    Reads escape [0x75, a, b, c, d] (Char.ofNat n) := by
  refine Reads.next_bind ?_
  rw [numberedEscape, ← List.append_nil [a, b, c, d]]
  refine (reads_hexUnit hn).bind ?_
  rw [if_neg (by simp; omega), if_neg (by simp; omega)]
  exact Reads.pure _

theorem reads_pairByte (b : UInt8) : Reads (pairByte b) [b] () := by
  intro rest position
  change (eat >>= fun _ => if b = b then pure () else refuse .unfinishedPair : Reader Unit) ⟨b :: rest, position⟩ = _
  rw [if_pos rfl]
  rfl

theorem reads_pairEscape {a b c d a' b' c' d' : UInt8} {high low : Nat} (hhigh : hexUnit? a b c d = some high)
    (hlow : hexUnit? a' b' c' d' = some low) (hleads : 0xd800 ≤ high ∧ high < 0xdc00)
    (htrails : 0xdc00 ≤ low ∧ low < 0xe000) :
    Reads escape [0x75, a, b, c, d, 0x5c, 0x75, a', b', c', d']
      (Char.ofNat (0x10000 + (high - 0xd800) * 0x400 + (low - 0xdc00))) := by
  have hlast : Reads (hexUnit >>= fun m => if (0xdc00 ≤ m && m ≤ 0xdfff) = true then
      pure (Char.ofNat (0x10000 + (high - 0xd800) * 0x400 + (m - 0xdc00))) else refuse .loneSurrogate)
      ([a', b', c', d'] ++ []) (Char.ofNat (0x10000 + (high - 0xd800) * 0x400 + (low - 0xdc00))) := by
    refine (reads_hexUnit hlow).bind ?_
    rw [if_pos (by simp; omega)]
    exact Reads.pure _
  refine Reads.next_bind ?_
  change Reads numberedEscape ([a, b, c, d] ++ ([0x5c] ++ ([0x75] ++ ([a', b', c', d'] ++ [])))) _
  refine (reads_hexUnit hhigh).bind ?_
  rw [if_neg (by simp; omega), if_pos (by simp; omega)]
  exact (reads_pairByte 0x5c).bind ((reads_pairByte 0x75).bind hlast)

theorem ne_of_letterEscape? {b : UInt8} (h : (letterEscape? b).isSome = true) : b ≠ 0x75 := by
  rintro rfl
  cases h

/-- The rounds of the reader over a string that stands for a text, in which a run of characters stands in front. -/
theorem exists_rounds_of_spells {raw : List UInt8} {text : List Char} (h : Spells raw text) {run : List Char}
    (hrun : ∀ c ∈ run, isEscaped c = false) (seen : List Char) (rest : List UInt8) (p : Position) :
    ∃ q, Rounds textStep seen ⟨Utf8.encode run ++ (raw ++ 0x22 :: rest), p⟩ (seen.reverse ++ (run ++ text))
      ⟨rest, q⟩ := by
  have hnone : ∀ c ∈ ([] : List Char), isEscaped c = false := fun _ hc => nomatch hc
  -- what an escape is read as goes to the characters seen, and the run begins anew behind it
  have hescape {bytes raw : List UInt8} {c : Char} {text : List Char} {run : List Char}
      (hrun : ∀ c ∈ run, isEscaped c = false) {seen : List Char} {p : Position} (hc : Reads escape bytes c)
      (hmore : ∀ seen p, ∃ q, Rounds textStep seen ⟨Utf8.encode [] ++ (raw ++ 0x22 :: rest), p⟩
        (seen.reverse ++ ([] ++ text)) ⟨rest, q⟩) :
      ∃ q, Rounds textStep seen ⟨Utf8.encode run ++ (0x5c :: bytes ++ raw ++ 0x22 :: rest), p⟩
        (seen.reverse ++ (run ++ c :: text)) ⟨rest, q⟩ := by
    obtain ⟨q, hmore⟩ := hmore (c :: (run.reverse ++ seen)) (p.behind (Utf8.encode run ++ 0x5c :: bytes))
    have hround := Rounds.of_reads (reads_textStep_escape hrun seen hc) (by simp) hmore
    refine ⟨q, ?_⟩
    have hbytes : Utf8.encode run ++ (0x5c :: bytes ++ raw ++ 0x22 :: rest) =
        Utf8.encode run ++ 0x5c :: bytes ++ (Utf8.encode [] ++ (raw ++ 0x22 :: rest)) := by simp
    have htext : seen.reverse ++ (run ++ c :: text) = (c :: (run.reverse ++ seen)).reverse ++ ([] ++ text) := by simp
    rw [hbytes, htext]
    exact hround
  induction h generalizing run seen p with
  | nil =>
      have hquote := reads_textStep_quote hrun seen rest p
      rw [List.append_assoc] at hquote
      rw [List.append_nil]
      exact ⟨_, .last hquote⟩
  | @plain c raw text hc h ih =>
      have hmore : ∀ d ∈ run ++ [c], isEscaped d = false := fun d hd => by
        rcases List.mem_append.mp hd with hd | hd
        · exact hrun d hd
        · exact List.mem_singleton.mp hd ▸ hc
      obtain ⟨q, hrounds⟩ := ih hmore seen p
      rw [Utf8.encode_append, Utf8.encode_cons, Utf8.encode_nil, List.append_nil] at hrounds
      simp only [List.append_assoc, List.singleton_append] at hrounds ⊢
      exact ⟨q, hrounds⟩
  | letter hc h ih =>
      have hb := ne_of_letterEscape? (Option.isSome_of_eq_some hc)
      exact hescape hrun (reads_letterEscape hb hc) (ih hnone)
  | unit hn hscalar h ih => exact hescape hrun (reads_unitEscape hn hscalar) (ih hnone)
  | pair hhigh hlow hleads htrails h ih =>
      exact hescape hrun (reads_pairEscape hhigh hlow hleads htrails) (ih hnone)

/-- A string is read as the text that it stands for. -/
theorem takes_text {raw : List UInt8} {t : String} (h : Spells raw t.toList) : Takes text (raw ++ [0x22]) t := by
  intro rest p
  have hnone : ∀ c ∈ ([] : List Char), isEscaped c = false := fun _ hc => nomatch hc
  obtain ⟨q, hrounds⟩ := exists_rounds_of_spells h hnone [] rest p
  have hloop := loop_of_rounds hrounds
  rw [Utf8.encode_nil, List.nil_append] at hloop
  refine ⟨q, ?_⟩
  rw [List.append_assoc, text]
  refine (bind_done hloop).trans ?_
  change Reply.done (String.ofList t.toList) _ = _
  rw [String.ofList_toList]

/-! ### Strings that stand for none -/

theorem exists_of_decodeRun {start : Position} {run : List UInt8} {c c' : Cursor} {chars : List Char}
    (h : decodeRun start run c = .done chars c') : Utf8.decode? run = some chars ∧ c' = c := by
  unfold decodeRun at h
  cases hfault : Utf8.fault? run with
  | some fault =>
      rw [hfault] at h
      cases h
  | none =>
      cases hdecode : Utf8.decode? run with
      | none =>
          rw [hfault, hdecode] at h
          cases h
      | some front =>
          rw [hfault, hdecode] at h
          cases h
          exact ⟨rfl, rfl⟩

section

variable {run : List UInt8} (hrun : ∀ b ∈ run, isPlain b = true) (seen : List Char) (rest : List UInt8) (p : Position)

include hrun

theorem textStep_quote : textStep seen ⟨run ++ 0x22 :: rest, p⟩ =
    (do
      let chars ← decodeRun p run
      pure (.inr (seen.reverse ++ chars)) : Reader (List Char ⊕ List Char)) ⟨rest, (p.behind run).after 0x22⟩ := by
  rw [textStep, plainFrom_append hrun rfl]
  rfl

theorem textStep_escape : textStep seen ⟨run ++ 0x5c :: rest, p⟩ =
    (do
      let chars ← decodeRun p run
      let escaped ← escape
      pure (.inl (escaped :: (chars.reverse ++ seen))) : Reader (List Char ⊕ List Char))
      ⟨rest, (p.behind run).after 0x5c⟩ := by
  rw [textStep, plainFrom_append hrun rfl]
  rfl

end

/-- The second half of a surrogate pair. -/
def secondHalf : Reader Nat := do
  pairByte 0x5c
  pairByte 0x75
  hexUnit

/-- Behind its mark a numbered escape is judged by its unit. -/
theorem escape_unit {a b c d : UInt8} {n : Nat} (hn : hexUnit? a b c d = some n) (rest : List UInt8) (p : Position) :
    ∃ q, escape ⟨0x75 :: a :: b :: c :: d :: rest, p⟩ =
      (if 0xdc00 ≤ n && n ≤ 0xdfff then refuse .loneSurrogate
        else if 0xd800 ≤ n && n ≤ 0xdbff then do
          let m ← secondHalf
          if 0xdc00 ≤ m && m ≤ 0xdfff then
            pure (Char.ofNat (0x10000 + (n - 0xd800) * 0x400 + (m - 0xdc00)))
          else refuse .loneSurrogate
        else pure (Char.ofNat n) : Reader Char) ⟨rest, q⟩ := by
  refine ⟨(p.after 0x75).behind [a, b, c, d], (bind_done (reads_hexUnit hn rest (p.after 0x75))).trans ?_⟩
  simp only [secondHalf, bind_assoc]

theorem pairByte_of_ne {expected b : UInt8} (h : b ≠ expected) (rest : List UInt8) (p : Position) :
    ∃ e c, pairByte expected ⟨b :: rest, p⟩ = .failed e c := by
  have heat : pairByte expected ⟨b :: rest, p⟩ =
      (if b = expected then pure () else refuse .unfinishedPair : Reader Unit) ⟨rest, p.after b⟩ := rfl
  rw [heat, if_neg h]
  exact ⟨_, _, rfl⟩

/-- The second half of a pair is a unit of its own in the bytes of a string. -/
theorem exists_of_secondHalf {raw rest : List UInt8} {p : Position} {m : Nat} {behind : Cursor} (h : IsText raw)
    (hread : secondHalf ⟨raw ++ 0x22 :: rest, p⟩ = .done m behind) :
    ∃ a b c d more q, raw = 0x5c :: 0x75 :: a :: b :: c :: d :: more ∧ hexUnit? a b c d = some m ∧ IsText more ∧
      behind = ⟨more ++ 0x22 :: rest, q⟩ := by
  have hrefused {b expected : UInt8} {f : Unit → Reader Nat} {rest : List UInt8} {p : Position} (hb : b ≠ expected)
      (h : (pairByte expected >>= f) ⟨b :: rest, p⟩ = .done m behind) : False := by
    obtain ⟨e, c, hfailed⟩ := pairByte_of_ne hb rest p
    rw [bind_failed hfailed] at h
    cases h
  cases h with
  | nil => exact (hrefused (by decide) hread).elim
  | plain hb h =>
      refine (hrefused ?_ hread).elim
      rintro rfl
      cases hb
  | letter hb h =>
      have hmark := (bind_done (reads_pairByte 0x5c _ p)).symm.trans hread
      exact (hrefused (ne_of_letterEscape? hb) hmark).elim
  | @unit a b c d more hunit h =>
      obtain ⟨n, hn⟩ := Option.isSome_iff_exists.mp hunit
      have hhalf : Reads secondHalf ([0x5c] ++ ([0x75] ++ [a, b, c, d])) n :=
        (reads_pairByte 0x5c).bind ((reads_pairByte 0x75).bind (reads_hexUnit hn))
      obtain ⟨rfl, rfl⟩ := Reply.done.inj ((hhalf (more ++ 0x22 :: rest) p).symm.trans hread)
      exact ⟨a, b, c, d, more, _, rfl, hn, h, rfl⟩

/-- An escape is read from the beginning of the bytes of a string, and what is left of them is shorter. -/
theorem exists_of_escape {raw rest : List UInt8} {p : Position} {c : Char} {behind : Cursor}
    (h : IsText (0x5c :: raw)) (hread : escape ⟨raw ++ 0x22 :: rest, p⟩ = .done c behind) :
    ∃ more q, behind = ⟨more ++ 0x22 :: rest, q⟩ ∧ IsText more ∧ more.length < raw.length ∧
      ∀ text, Spells more text → Spells (0x5c :: raw) (c :: text) := by
  cases h with
  | plain hb h => cases hb
  | @letter b raw hb h =>
      obtain ⟨d, hd⟩ := Option.isSome_iff_exists.mp hb
      have hletter := reads_letterEscape (ne_of_letterEscape? hb) hd (raw ++ 0x22 :: rest) p
      obtain ⟨rfl, rfl⟩ := Reply.done.inj (hletter.symm.trans hread)
      exact ⟨raw, _, rfl, h, Nat.lt_succ_self _, fun text => .letter hd⟩
  | @unit a b c d raw hunit h =>
      obtain ⟨n, hn⟩ := Option.isSome_iff_exists.mp hunit
      obtain ⟨q, hescape⟩ := escape_unit hn (raw ++ 0x22 :: rest) p
      have hread := hescape.symm.trans hread
      by_cases htrails : 0xdc00 ≤ n ∧ n ≤ 0xdfff
      · rw [if_pos (by simpa using htrails)] at hread
        cases hread
      rw [if_neg (by simpa using htrails)] at hread
      by_cases hleads : 0xd800 ≤ n ∧ n ≤ 0xdbff
      · rw [if_pos (by simpa using hleads)] at hread
        obtain ⟨m, behind', hhalf, hread⟩ := exists_of_bind_done hread
        obtain ⟨a', b', c', d', more, q, rfl, hm, hmore, rfl⟩ := exists_of_secondHalf h hhalf
        by_cases hlow : 0xdc00 ≤ m ∧ m ≤ 0xdfff
        · rw [if_pos (by simpa using hlow)] at hread
          obtain ⟨rfl, rfl⟩ := Reply.done.inj hread
          refine ⟨more, q, rfl, hmore, by simp only [List.length_cons]; omega, fun text => ?_⟩
          exact .pair hn hm (by omega) (by omega)
        · rw [if_neg (by simpa using hlow)] at hread
          cases hread
      · rw [if_neg (by simpa using hleads)] at hread
        cases hread
        exact ⟨raw, q, rfl, h, by simp only [List.length_cons]; omega, fun text => .unit hn (by omega)⟩

/-- A string that is read stands for a text. -/
theorem exists_spells_of_iterate {raw run : List UInt8} (h : IsText raw) (hrun : ∀ b ∈ run, isPlain b = true)
    {fuel rest : List UInt8} {seen chars : List Char} {p : Position} {c : Cursor}
    (hread : iterate textStep fuel seen ⟨run ++ (raw ++ 0x22 :: rest), p⟩ = .done chars c) :
    ∃ text, Spells (run ++ raw) text := by
  induction hsize : raw.length using Nat.strongRecOn generalizing raw run fuel seen p with
  | ind size ih =>
      cases fuel with
      | nil => cases hread
      | cons _ fuel =>
          -- an escape ends the run; the string goes on with what the escape leaves
          have hescaped {more : List UInt8} (hraw : raw = 0x5c :: more) : ∃ text, Spells (run ++ raw) text := by
            subst hraw
            obtain ⟨answer, behind, hround, hrest⟩ := exists_of_bind_done hread
            have hround := (textStep_escape hrun seen (more ++ 0x22 :: rest) p).symm.trans hround
            obtain ⟨front, c₁, hfront, hround⟩ := exists_of_bind_done hround
            obtain ⟨hdecode, rfl⟩ := exists_of_decodeRun hfront
            obtain ⟨d, c₂, hd, hround⟩ := exists_of_bind_done hround
            obtain ⟨left, q, rfl, hleft, hless, hspells⟩ := exists_of_escape h hd
            cases hround
            have hnone : ∀ b ∈ ([] : List UInt8), isPlain b = true := fun _ hb => nomatch hb
            have hsmaller : left.length < size := by
              rw [← hsize, List.length_cons]
              omega
            obtain ⟨text, htext⟩ := ih left.length hsmaller hleft hnone hrest rfl
            exact ⟨_, spells_of_decode? hrun hdecode (hspells text htext)⟩
          cases h with
          | nil =>
              obtain ⟨answer, behind, hround, -⟩ := exists_of_bind_done hread
              have hround := (textStep_quote hrun seen rest p).symm.trans hround
              obtain ⟨front, _, hfront, -⟩ := exists_of_bind_done hround
              exact ⟨_, spells_of_decode? hrun (exists_of_decodeRun hfront).1 .nil⟩
          | @plain b raw hb h =>
              have hmore : ∀ d ∈ run ++ [b], isPlain d = true := fun d hd => by
                rcases List.mem_append.mp hd with hd | hd
                · exact hrun d hd
                · exact List.mem_singleton.mp hd ▸ hb
              have hparted : run ++ b :: raw = run ++ [b] ++ raw := by simp
              have hsmaller : raw.length < size := by
                rw [← hsize, List.length_cons]
                omega
              have hparted' : run ++ (b :: raw ++ 0x22 :: rest) = run ++ [b] ++ (raw ++ 0x22 :: rest) := by simp
              rw [hparted'] at hread
              rw [hparted]
              exact ih raw.length hsmaller h hmore hread rfl
          | letter hb h => exact hescaped rfl
          | unit hunit h => exact hescaped rfl

/-- A string that stands for no text is refused. -/
theorem refuses_text {raw : List UInt8} (h : IsText raw) (hnone : ∀ text, ¬Spells raw text) :
    Refuses text (raw ++ [0x22]) := by
  intro rest p
  rw [List.append_assoc]
  cases hread : text ⟨raw ++ ([0x22] ++ rest), p⟩ with
  | failed e c => exact ⟨e, c, rfl⟩
  | done t c =>
      obtain ⟨chars, c₁, hloop, -⟩ := exists_of_bind_done hread
      have hplain : ∀ b ∈ ([] : List UInt8), isPlain b = true := fun _ hb => nomatch hb
      obtain ⟨text, htext⟩ := exists_spells_of_iterate h hplain hloop
      exact (hnone text htext).elim

/-- A string stands for one text at most. -/
theorem spells_unique {raw : List UInt8} {s t : List Char} (hs : Spells raw s) (ht : Spells raw t) : s = t := by
  rw [← String.toList_ofList (l := s)] at hs
  rw [← String.toList_ofList (l := t)] at ht
  obtain ⟨q, hs⟩ := takes_text hs [] .first
  obtain ⟨q', ht⟩ := takes_text ht [] .first
  exact String.ofList_injective (Reply.done.inj (hs.symm.trans ht)).1

/-! ### Passing over strings -/

/-- What is ahead is judged by its first byte. -/
theorem peek_bind_congr {α : Type} {b : UInt8} {g : Option UInt8 → Reader α} {r : Reader α} (h : g (some b) = r)
    (rest : List UInt8) (p : Position) : (peek >>= g) ⟨b :: rest, p⟩ = r ⟨b :: rest, p⟩ := by
  rw [← h]
  rfl

theorem skipTextStep_plain {b : UInt8} (hb : isPlain b = true) (rest : List UInt8) (p : Position) :
    skipTextStep () ⟨b :: rest, p⟩ = .done (.inl ()) ⟨rest, p.after b⟩ := by
  simp only [isPlain, Bool.and_eq_true, bne_iff_ne, decide_eq_true_eq, UInt8.le_iff_toNat_le, UInt8.reduceToNat] at hb
  have hcontrol : ¬b < 0x20 := by simpa [UInt8.lt_iff_toNat_lt] using hb.1.1
  refine peek_bind_congr (r := eat >>= fun _ => pure (Sum.inl () : Unit ⊕ Unit)) ?_ rest p
  split
  · rename_i heq
    cases heq
  · rename_i heq
    exact absurd (Option.some.inj heq) hb.1.2
  · rename_i heq
    exact absurd (Option.some.inj heq) hb.2
  · rename_i heq
    cases heq
    rw [if_neg hcontrol]

theorem reads_skipEscape_letter {b : UInt8} (hb : (letterEscape? b).isSome = true) : Reads skipEscape [b] () := by
  refine Reads.next_bind ?_
  split
  · rename_i heq
    cases heq
  · rename_i heq
    exact absurd (Option.some.inj heq) (ne_of_letterEscape? hb)
  · rename_i heq
    cases heq
    rw [if_pos hb]
    exact Reads.pure ()

theorem reads_skipEscape_unit {a b c d : UInt8} (h : (hexUnit? a b c d).isSome = true) :
    Reads skipEscape [0x75, a, b, c, d] () := by
  obtain ⟨n, hn⟩ := Option.isSome_iff_exists.mp h
  exact Reads.next_bind ((reads_hexUnit hn).map fun _ => ())

theorem reads_skipTextStep_escape {bytes : List UInt8} (h : Reads skipEscape bytes ()) :
    Reads (skipTextStep ()) (0x5c :: bytes) (.inl ()) := by
  have hround : Reads (eat >>= fun _ => skipEscape >>= fun _ => pure (.inl ()) : Reader (Unit ⊕ Unit))
      ([0x5c] ++ (bytes ++ [])) (.inl ()) :=
    (Reads.eat 0x5c).bind (h.bind (Reads.pure _))
  rw [List.append_nil] at hround
  exact hround

theorem exists_rounds_skipText {raw : List UInt8} (h : IsText raw) (rest : List UInt8) (p : Position) :
    ∃ q, Rounds skipTextStep () ⟨raw ++ 0x22 :: rest, p⟩ () ⟨rest, q⟩ := by
  induction h generalizing p with
  | nil => exact ⟨_, .last rfl⟩
  | @plain b raw hb h ih =>
      obtain ⟨q, hrest⟩ := ih (p.after b)
      exact ⟨q, .more (skipTextStep_plain hb _ p) (Nat.lt_succ_self _) hrest⟩
  | @letter b raw hb h ih =>
      have hround := reads_skipTextStep_escape (reads_skipEscape_letter hb)
      obtain ⟨q, hrest⟩ := ih (p.behind [0x5c, b])
      have hrounds := Rounds.of_reads hround (List.cons_ne_nil _ _) hrest
      exact ⟨q, hrounds⟩
  | @unit a b c d raw hunit h ih =>
      have hround := reads_skipTextStep_escape (reads_skipEscape_unit hunit)
      obtain ⟨q, hrest⟩ := ih (p.behind [0x5c, 0x75, a, b, c, d])
      have hrounds := Rounds.of_reads hround (List.cons_ne_nil _ _) hrest
      exact ⟨q, hrounds⟩

theorem takes_skipText {raw : List UInt8} (h : IsText raw) : Takes skipText (raw ++ [0x22]) () := by
  intro rest p
  obtain ⟨q, hrounds⟩ := exists_rounds_skipText h rest p
  refine ⟨q, ?_⟩
  rw [List.append_assoc]
  exact loop_of_rounds hrounds

end Reader

end ChainHead.Json
