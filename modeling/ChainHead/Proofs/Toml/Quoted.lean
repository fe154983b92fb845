import ChainHead.Json.Text
import ChainHead.Proofs.Toml.Nesting
import Mathlib.Tactic.IntervalCases

/-! Texts that are written to be read. Every text can stand between quotes if what cannot stand for itself is escaped,
and it is read as it was. So a member whose value is a text can be written on a line of its own, or between braces. -/

namespace ChainHead.Toml

/-- How a character is written between quotes. Unlike in JSON, the last control is escaped as well. -/
def escaping (c : Char) : List Char :=
  if c = '\x7f' then ['\\', 'u', '0', '0', '7', 'f'] else Json.escapeChar c

def quoted (text : String) : List Char := '"' :: (text.toList.flatMap escaping ++ ['"'])

theorem exists_escaping_eq_cons (c : Char) : ∃ first others, escaping c = first :: others ∧ first ≠ '"' := by
  rw [escaping, Json.escapeChar]
  split_ifs with hdelete hquote
  all_goals refine ⟨_, _, rfl, ?_⟩
  all_goals first | decide | exact hquote

theorem length_le_flatMap_escaping (text : List Char) : text.length ≤ (text.flatMap escaping).length := by
  induction text with
  | nil => exact Nat.le_refl _
  | cons c text ih =>
      obtain ⟨first, others, heq, -⟩ := exists_escaping_eq_cons c
      rw [List.flatMap_cons, heq, List.cons_append, List.length_cons, List.length_cons, List.length_append]
      omega

namespace Reader

variable {offset middle : Nat} {fuel rest behind done : List Char} {what : String} {c : Char} {s s' : Source}

theorem sees_eq (text : List Char) (s : Source) : sees text s = .ok (text.isPrefixOf s.rest, s) := rfl

theorem accept_of_not {text : List Char} (h : text.isPrefixOf s.rest = false) : accept text s = .ok (false, s) := by
  rw [accept, bind_ok (sees_eq text s), h]
  rfl

theorem not_isPrefixOf {d : Char} (h : c ≠ d) : [d].isPrefixOf (c :: rest) = false := by
  simp [List.isPrefixOf, h.symm]

/-! ### Strings -/

theorem isPlain_of_not_control (hcontrol : ¬ c.val < 0x20) (hdelete : c ≠ '\x7f') : isPlain c = true := by
  have hspace : ' ' ≤ c := Char.le_def.mpr (UInt32.not_lt.mp hcontrol)
  simp [isPlain, hspace, hdelete]

theorem textStep_escaping (what : String) (offset : Nat) (done rest : List Char) (c : Char) : ∃ behind,
    textStep what '"' true false done ⟨offset, escaping c ++ rest⟩ = .ok (.inl (c :: done), ⟨behind, rest⟩) := by
  rw [escaping]
  split_ifs with hdelete
  · cases hdelete
    exact ⟨_, rfl⟩
  rw [Json.escapeChar]
  split_ifs with hquote hslash hback hfeed hline hreturn htab hcontrol
  · cases hquote
    exact ⟨_, rfl⟩
  · cases hslash
    exact ⟨_, rfl⟩
  · obtain rfl : c = '\x08' := Char.ext hback
    exact ⟨_, rfl⟩
  · obtain rfl : c = '\x0c' := Char.ext hfeed
    exact ⟨_, rfl⟩
  · cases hline
    exact ⟨_, rfl⟩
  · cases hreturn
    exact ⟨_, rfl⟩
  · cases htab
    exact ⟨_, rfl⟩
  · -- a control that has no letter is written by its number
    have hsmall : c.toNat < 32 := UInt32.lt_iff_toNat_lt.mp hcontrol
    rw [← Char.ofNat_toNat c]
    generalize c.toNat = n at hsmall
    interval_cases n <;> exact ⟨_, rfl⟩
  · refine ⟨offset + (Utf8.encode [c]).length, ?_⟩
    rw [textStep, bind_ok (peek_eq _)]
    simp only [List.singleton_append, List.head?_cons, hquote, hslash, isPlain_of_not_control hcontrol hdelete,
      if_false, if_true, false_and]
    rfl

theorem iterate_escaping (what : String) (offset : Nat) (fuel done rest text : List Char)
    (h : text.length < fuel.length) : ∃ behind,
    iterate (textStep what '"' true false) fuel done ⟨offset, text.flatMap escaping ++ '"' :: rest⟩ =
      .ok (done.reverse ++ text, ⟨behind, rest⟩) := by
  induction text generalizing fuel done offset with
  | nil =>
      obtain ⟨_, fuel, rfl⟩ := List.exists_cons_of_length_pos h
      rw [List.append_nil]
      exact ⟨_, rfl⟩
  | cons c text ih =>
      obtain ⟨_, fuel, rfl⟩ := List.exists_cons_of_length_pos (Nat.zero_lt_of_lt h)
      obtain ⟨middle, hstep⟩ := textStep_escaping what offset done (text.flatMap escaping ++ '"' :: rest) c
      obtain ⟨behind, htext⟩ := ih middle fuel (c :: done) (Nat.lt_of_succ_lt_succ h)
      refine ⟨behind, ?_⟩
      rw [List.flatMap_cons, List.append_assoc, iterate, bind_ok hstep]
      dsimp only
      rw [htext, List.reverse_cons, List.append_assoc, List.singleton_append]

theorem lineText_quoted (offset : Nat) (rest : List Char) (text : String) : ∃ behind,
    lineText '"' ⟨offset, quoted text ++ rest⟩ = .ok (text, ⟨behind, rest⟩) := by
  have hfuel : text.toList.length < (' ' :: (text.toList.flatMap escaping ++ '"' :: rest)).length := by
    have hle := length_le_flatMap_escaping text.toList
    simp only [List.length_cons, List.length_append]
    omega
  obtain ⟨behind, htext⟩ := iterate_escaping "basic string" (offset + 1) _ [] rest _ hfuel
  have hloop : loop (textStep "basic string" '"' true false) []
      ⟨offset + 1, text.toList.flatMap escaping ++ '"' :: rest⟩ = .ok (text.toList, ⟨behind, rest⟩) := htext
  have heat : eat 1 ⟨offset, '"' :: (text.toList.flatMap escaping ++ '"' :: rest)⟩ =
      .ok ((), ⟨offset + 1, text.toList.flatMap escaping ++ '"' :: rest⟩) := rfl
  refine ⟨behind, ?_⟩
  rw [quoted, List.cons_append, List.append_assoc, List.singleton_append, lineText, bind_ok heat]
  exact (bind_ok hloop).trans (congrArg (fun t => Except.ok (t, _)) String.ofList_toList)

/-- What stands behind is no quote, so an empty text is not taken for three quotes. -/
theorem text_quoted (offset : Nat) (rest : List Char) (hc : c ≠ '"') (text : String) : ∃ behind,
    Reader.text '"' ⟨offset, quoted text ++ c :: rest⟩ = .ok (text, ⟨behind, c :: rest⟩) := by
  have hnot : ['"', '"', '"'].isPrefixOf (quoted text ++ c :: rest) = false := by
    rw [quoted, List.cons_append, List.append_assoc]
    cases text.toList with
    | nil => simp [List.isPrefixOf, hc.symm]
    | cons d text =>
        obtain ⟨first, others, heq, hfirst⟩ := exists_escaping_eq_cons d
        simp [List.isPrefixOf, heq, hfirst.symm]
  rw [Reader.text, bind_ok (accept_of_not hnot)]
  exact lineText_quoted offset (c :: rest) text

theorem spanned_ok {α : Type} {r : Reader α} {a : α} (h : r s = .ok (a, s')) :
    spanned r s = .ok ((⟨s.offset, s'.offset⟩, a), s') := by
  have hstart : (get : Reader Source) s = .ok (s, s) := rfl
  rw [spanned, bind_ok hstart, bind_ok h]
  rfl

/-- A value that is written between quotes. -/
theorem value_quoted (offset : Nat) (rest : List Char) (hc : c ≠ '"') (limit levels : Nat) (text : String) :
    ∃ span behind, value limit (levels + 1) ⟨offset, quoted text ++ c :: rest⟩ =
      .ok (.text span text, ⟨behind, c :: rest⟩) := by
  obtain ⟨behind, htext⟩ := text_quoted offset rest hc text
  have hunplaced : unplaced ⟨offset, quoted text ++ c :: rest⟩ = .ok ((.text · text), ⟨behind, c :: rest⟩) := by
    rw [unplaced, bind_ok (peek_eq _)]
    exact bind_ok htext
  have hscalar : scalar ⟨offset, quoted text ++ c :: rest⟩ =
      .ok (.text ⟨offset, behind⟩ text, ⟨behind, c :: rest⟩) := by
    rw [scalar, bind_ok (spanned_ok hunplaced)]
    rfl
  refine ⟨⟨offset, behind⟩, behind, ?_⟩
  rw [value, bind_ok (peek_eq _)]
  exact hscalar

/-! ### Members -/

variable {limit : Nat} {inner : Reader Node} {path : List Key} {key : Key} {item : Node} {more : Entries}

theorem blanks_eq (s : Source) : blanks s = .ok ((), ⟨s.offset + (Utf8.encode (s.rest.takeWhile isBlank)).length,
    s.rest.dropWhile isBlank⟩) := by
  have hrun : blanks s = .ok ((), ⟨s.offset + (Utf8.encode (s.rest.take (s.rest.takeWhile isBlank).length)).length,
    s.rest.drop (s.rest.takeWhile isBlank).length⟩) := rfl
  have hbehind : s.rest.drop (s.rest.takeWhile isBlank).length = s.rest.dropWhile isBlank := by
    have hdrop : (s.rest.takeWhile isBlank ++ s.rest.dropWhile isBlank).drop (s.rest.takeWhile isBlank).length =
      s.rest.dropWhile isBlank := List.drop_left
    rwa [List.takeWhile_append_dropWhile] at hdrop
  rw [hrun, ← List.prefix_iff_eq_take.mp (List.takeWhile_prefix _), hbehind]

/-- A member as it is written: its keys, an equals sign between blanks, and its value. -/
theorem member_ok (hkeys : keys limit s = .ok ((path, key), ⟨offset, '=' :: ' ' :: c :: rest⟩))
    (hc : isBlank c = false) (hitem : inner ⟨offset + 1 + 1, c :: rest⟩ = .ok (item, s')) :
    member limit inner s = .ok ((path, key, item), s') := by
  have haccept : accept ['='] ⟨offset, '=' :: ' ' :: c :: rest⟩ = .ok (true, ⟨offset + 1, ' ' :: c :: rest⟩) := rfl
  have hblanks : blanks ⟨offset + 1, ' ' :: c :: rest⟩ = .ok ((), ⟨offset + 1 + 1, c :: rest⟩) := by
    have hspace : isBlank ' ' = true := rfl
    have hsize : ' '.utf8Size = 1 := rfl
    simp [blanks_eq, hspace, hc, hsize]
  rw [member, bind_ok hkeys]
  dsimp only
  rw [bind_ok haccept]
  simp only [Bool.not_true, Bool.false_eq_true, if_false]
  rw [bind_ok hblanks, bind_ok hitem]
  rfl

/-- A member on a line of its own is added to the current section. -/
theorem lineStep_member {d next : Draft} (hc : isKeyChar c = true)
    (hmember : member levelLimit (value levelLimit (levelLimit - 1)) ⟨offset, c :: rest⟩ =
      .ok ((path, key, item), ⟨middle, '\n' :: behind⟩))
    (hadd : d.add path key item = .ok next) :
    lineStep levelLimit d ⟨offset, c :: rest⟩ = .ok (.inl next, ⟨middle + 1, behind⟩) := by
  have hne (d : Char) (hd : isKeyChar d = false) : c ≠ d := by
    rintro rfl
    cases hd.symm.trans hc
  have hblanks : blanks ⟨offset, c :: rest⟩ = .ok ((), ⟨offset, c :: rest⟩) := by
    have hblank : isBlank c = false := by simp [isBlank, hne ' ' rfl, hne '\t' rfl]
    simp [blanks_eq, hblank]
  have hend : lineRest ⟨middle, '\n' :: behind⟩ = .ok ((), ⟨middle + 1, behind⟩) := rfl
  have hstatement : statement levelLimit d ⟨offset, c :: rest⟩ = .ok (next, ⟨middle + 1, behind⟩) := by
    rw [statement, bind_ok (sees_eq _ _), not_isPrefixOf (hne '[' rfl)]
    simp only [Bool.false_eq_true, if_false]
    rw [bind_ok (spanned_ok hmember)]
    dsimp only
    rw [bind_ok hend, hadd]
    rfl
  have hline : lineStep levelLimit d ⟨offset, c :: rest⟩ =
      (Sum.inl <$> statement levelLimit d) ⟨offset, c :: rest⟩ := by
    rw [lineStep, bind_ok hblanks, bind_ok (peek_eq _)]
    simp [hne '#' rfl, hne '\n' rfl, hne '\r' rfl]
  rw [hline, map_eq_pure_bind]
  exact bind_ok hstatement

/-- A member whose value is written between quotes, on a line of its own. -/
theorem lineStep_quoted (offset : Nat) (front rest : List Char) (text : String) (d : Draft) {next : Span → Draft}
    (hfront : front.head?.any isKeyChar = true)
    (hkeys : ∀ rest, keys levelLimit ⟨offset, front ++ rest⟩ = .ok ((path, key), ⟨middle, '=' :: ' ' :: rest⟩))
    (hadd : ∀ span, d.add path key (.text span text) = .ok (next span)) : ∃ span behind,
      lineStep levelLimit d ⟨offset, front ++ (quoted text ++ '\n' :: rest)⟩ =
        .ok (.inl (next span), ⟨behind, rest⟩) := by
  cases front with
  | nil => cases hfront
  | cons c front =>
      obtain ⟨span, behind, hvalue⟩ := value_quoted (c := '\n') (middle + 1 + 1) rest (by decide) levelLimit 78 text
      exact ⟨span, behind + 1, lineStep_member hfront (member_ok (hkeys _) (c := '"') rfl hvalue) (hadd span)⟩

theorem lineStep_nil (d : Draft) : lineStep levelLimit d ⟨offset, []⟩ = .ok (.inr d, ⟨offset, []⟩) := rfl

/-! ### Tables between braces -/

theorem memberStep_comma (done : Entries)
    (hmember : member limit inner s = .ok ((path, key, item), ⟨offset, ',' :: rest⟩))
    (hadd : addDotted none path key item .braces done = .ok more) :
    memberStep limit inner done s = .ok (.inl more, ⟨offset + 1, rest⟩) := by
  rw [memberStep, bind_ok (spanned_ok hmember)]
  dsimp only
  rw [hadd]
  rfl

theorem memberStep_close (done : Entries)
    (hmember : member limit inner s = .ok ((path, key, item), ⟨offset, '\x7d' :: rest⟩))
    (hadd : addDotted none path key item .braces done = .ok more) :
    memberStep limit inner done s = .ok (.inr more, ⟨offset + 1, rest⟩) := by
  rw [memberStep, bind_ok (spanned_ok hmember)]
  dsimp only
  rw [hadd]
  rfl

theorem value_braces {levels : Nat} {entries : Entries} (hc : isBlank c = false) (hinside : c ≠ '\x7d')
    (hentries : loop (memberStep limit (value limit levels)) [] ⟨offset + 1, c :: rest⟩ = .ok (entries, s')) :
    value limit (levels + 1) ⟨offset, '\x7b' :: c :: rest⟩ =
      .ok (.table .braces (some ⟨offset, s'.offset⟩) entries, s') := by
  have heat : eat 1 ⟨offset, '\x7b' :: c :: rest⟩ = .ok ((), ⟨offset + 1, c :: rest⟩) := rfl
  have hblanks : blanks ⟨offset + 1, c :: rest⟩ = .ok ((), ⟨offset + 1, c :: rest⟩) := by simp [blanks_eq, hc]
  have hmembers : (do
      eat 1
      blanks
      if ← accept ['\x7d'] then return []
      loop (memberStep limit (value limit levels)) []) ⟨offset, '\x7b' :: c :: rest⟩ = .ok (entries, s') := by
    rw [bind_ok heat, bind_ok hblanks, bind_ok (accept_of_not (not_isPrefixOf hinside))]
    exact hentries
  rw [value, bind_ok (peek_eq _)]
  exact bind_ok (spanned_ok hmembers)

/-! ### Documents -/

section

variable {σ α : Type} {step : σ → Reader (σ ⊕ α)} {a next : σ} {b : α}

theorem iterate_next (h : step a s = .ok (.inl next, s')) :
    iterate step (c :: fuel) a s = iterate step fuel next s' := by
  rw [iterate, bind_ok h]

theorem iterate_last (h : step a s = .ok (.inr b, s')) : iterate step (c :: fuel) a s = .ok (b, s') := by
  rw [iterate, bind_ok h]
  rfl

theorem loop_two {middle : Source} (hfirst : step a ⟨offset, c :: rest⟩ = .ok (.inl next, middle))
    (hlast : step next middle = .ok (.inr b, s')) : loop step a ⟨offset, c :: rest⟩ = .ok (b, s') := by
  have hloop : loop step a ⟨offset, c :: rest⟩ = iterate step (' ' :: c :: rest) a ⟨offset, c :: rest⟩ := rfl
  rw [hloop, iterate_next hfirst, iterate_last hlast]

end

end Reader

open Reader

/-- A draft before any line. -/
def Draft.start : Draft := ⟨⟨0, 0⟩, [], ⟨[], false, ⟨0, 0⟩, []⟩⟩

/-- A text is a document if its lines are. -/
theorem Document.read_of_lines {c : Char} {text : List Char} {d : Draft} {s : Source} {entries : Entries}
    (hstart : c ≠ '\ufeff')
    (hlines : iterate (lineStep levelLimit) (' ' :: c :: text) .start ⟨0, c :: text⟩ = .ok (d, s))
    (hclose : d.close = .ok entries) : Document.read (String.ofList (c :: text)) = .ok ⟨d.whole, entries⟩ := by
  have hskip : discard (accept ['\ufeff']) ⟨0, c :: text⟩ = .ok ((), ⟨0, c :: text⟩) :=
    bind_ok (f := fun _ => pure ()) (accept_of_not (not_isPrefixOf hstart))
  have hloop : loop (lineStep levelLimit) .start ⟨0, c :: text⟩ = .ok (d, s) := hlines
  have hdocument : document levelLimit ⟨0, c :: text⟩ = .ok (⟨d.whole, entries⟩, s) := by
    rw [document, bind_ok hskip, ← Draft.start, bind_ok hloop, hclose]
    rfl
  rw [read, readWithin, String.toList_ofList, StateT.run, hdocument]
  rfl

end ChainHead.Toml
