import ChainHead.Error
import ChainHead.Proofs.Beacon.Endpoints
import ChainHead.Proofs.Text.Denotation

/-! Names of blocks. A text names a block exactly if it is one of three words, a root of 64 digits behind its mark, or a
numeral for a slot. Each block has one canonical name, the one that is written, and all of its names are read as the
block. -/

namespace ChainHead.BlockId

def IsWord (text : List Char) : Prop := text = "head".toList ∨ text = "genesis".toList ∨ text = "finalized".toList

/-- A text names a block. -/
inductive Names : List Char → BlockId → Prop
  | head : Names "head".toList .head
  | genesis : Names "genesis".toList .genesis
  | finalized : Names "finalized".toList .finalized
  | root {ds : List Char} {hash : Hash} (h : Hex.Denotes ds hash.toList) : Names ('0' :: 'x' :: ds) (.root hash)
  | slot {text : List Char} {number : UInt64} (h : Numeral.Denotes text number) : Names text (.slot number)

/-- The texts that name some block. -/
inductive IsName : List Char → Prop
  | word {text : List Char} (h : IsWord text) : IsName text
  | root {ds : List Char} (hsize : ds.length = 64) (h : ∀ c ∈ ds, ∃ value, Hex.IsDigit c value) :
      IsName ('0' :: 'x' :: ds)
  | slot {text ds : List Char} (hsign : text = ds ∨ text = '+' :: ds) (hne : ds ≠ [])
      (h : ∀ c ∈ ds, '0' ≤ c ∧ c ≤ '9') (hfits : Json.goOn 0 (ds.map fun c => c.toNat - 48) < 2 ^ 64) : IsName text

/-- Spelled without a choice: no digit in upper case, no sign, no leading zero. -/
inductive IsCanonical : List Char → Prop
  | word {text : List Char} (h : IsWord text) : IsCanonical text
  | root {ds : List Char} (h : ∀ c ∈ ds, Hex.IsLower c) : IsCanonical ('0' :: 'x' :: ds)
  | slot {ds : List Char} (h : Numeral.IsCanonical ds) : IsCanonical ds

/-- Texts that come close to a name. -/
inductive NearMiss : List Char → Prop
  | upperMark (text : List Char) : NearMiss ('0' :: 'X' :: text)
  | size {ds : List Char} (h : ds.length ≠ 64) : NearMiss ('0' :: 'x' :: ds)
  | unmarked {ds : List Char} (h : ∀ c ∈ ds, ∃ value, Hex.IsDigit c value) (hletter : ∃ c ∈ ds, ¬('0' ≤ c ∧ c ≤ '9')) :
      NearMiss ds
  | tooLarge {text ds : List Char} (hsign : text = ds ∨ text = '+' :: ds) (h : ∀ c ∈ ds, '0' ≤ c ∧ c ≤ '9')
      (hlarge : 2 ^ 64 ≤ Json.goOn 0 (ds.map fun c => c.toNat - 48)) : NearMiss text

/-! ### Words, marks and digits -/

theorem not_isDigit {c : Char} (h : ∀ value < 16, ¬Hex.IsDigit c value) : ¬∃ value, Hex.IsDigit c value :=
  fun ⟨value, hvalue⟩ => h value hvalue.1 hvalue

/-- Every word has a letter that is neither a sign nor a digit. -/
theorem exists_letter_of_isWord {text : List Char} (h : IsWord text) :
    ∃ c ∈ text, (∀ value < 16, ¬Hex.IsDigit c value) ∧ c ≠ '+' ∧ ¬('0' ≤ c ∧ c ≤ '9') := by
  rcases h with rfl | rfl | rfl
  · exact ⟨'h', by decide⟩
  · exact ⟨'g', by decide⟩
  · exact ⟨'i', by decide⟩

theorem not_isWord_of_digits {text ds : List Char} (hsign : text = ds ∨ text = '+' :: ds)
    (h : ∀ c ∈ ds, '0' ≤ c ∧ c ≤ '9') : ¬IsWord text := by
  intro hword
  obtain ⟨c, hc, -, hplus, hdigit⟩ := exists_letter_of_isWord hword
  rcases hsign with rfl | rfl
  · exact hdigit (h c hc)
  · exact hdigit (h c ((List.mem_cons.mp hc).resolve_left hplus))

theorem not_isWord_marked (letter : Char) (ds : List Char) : ¬IsWord ('0' :: letter :: ds) := by
  rintro (h | h | h) <;> cases h

/-- What stands behind the zero of a mark is a letter, so a text with a mark is no numeral. -/
theorem not_digits_marked {letter : Char} {ds text : List Char} (hletter : ¬('0' ≤ letter ∧ letter ≤ '9'))
    (hsign : '0' :: letter :: text = ds ∨ '0' :: letter :: text = '+' :: ds) : ¬∀ c ∈ ds, '0' ≤ c ∧ c ≤ '9' := by
  intro h
  rcases hsign with rfl | heq
  · exact hletter (h letter (by simp))
  · cases heq

/-- The digits of a numeral are what stands behind its sign. -/
theorem digits_unique {text ds other : List Char} (hsign : text = ds ∨ text = '+' :: ds)
    (h : ∀ c ∈ ds, '0' ≤ c ∧ c ≤ '9') (hother : text = other ∨ text = '+' :: other)
    (hdigits : ∀ c ∈ other, '0' ≤ c ∧ c ≤ '9') : ds = other := by
  have hplus : ¬('0' ≤ '+' ∧ '+' ≤ '9') := by decide
  rcases hsign with rfl | rfl
  · rcases hother with rfl | rfl
    · rfl
    · exact absurd (h '+' List.mem_cons_self) hplus
  · rcases hother with rfl | heq
    · exact absurd (hdigits '+' List.mem_cons_self) hplus
    · exact (List.cons.inj heq).2

/-! ### Reading -/

theorem spelled_marked_iff {ds : List Char} {bytes : List UInt8} :
    Hex.Spelled ('0' :: 'x' :: ds) bytes ↔ Hex.Denotes ds bytes := by
  constructor
  · rintro ⟨text, htext | htext | htext, h⟩
    · rw [← htext] at h
      cases h with
      | cons ha hb h => exact absurd ⟨_, hb⟩ (not_isDigit (by decide))
    · cases htext
      exact h
    · cases htext
  · exact fun h => ⟨ds, .inr (.inl rfl), h⟩

theorem readRoot_eq_ok_iff {s : String} {ds : List Char} (hs : s.toList = '0' :: 'x' :: ds) {id : BlockId} :
    readRoot s = .ok id ↔ ∃ hash : Hash, id = .root hash ∧ Hex.Denotes ds hash.toList := by
  have hdecode (bytes : List UInt8) :
      Hex.decodeSized 32 s = .ok bytes ↔ bytes.length = 32 ∧ Hex.Denotes ds bytes := by
    rw [Hex.decodeSized_eq_ok_iff, hs, spelled_marked_iff]
  constructor
  · intro h
    rw [readRoot] at h
    cases hbytes : Hex.decodeSized 32 s with
    | error fault =>
        rw [hbytes] at h
        cases h
    | ok bytes =>
        obtain ⟨hsize, hdenotes⟩ := (hdecode bytes).mp hbytes
        obtain ⟨hash, rfl⟩ : ∃ hash : Hash, hash.toList = bytes := ⟨⟨bytes.toArray, by simpa using hsize⟩, by simp⟩
        simp only [hbytes, Wire.exactly_toList] at h
        exact ⟨hash, (Except.ok.inj h).symm, hdenotes⟩
  · rintro ⟨hash, rfl, h⟩
    simp only [readRoot, (hdecode _).mpr ⟨hash.length_toList, h⟩, Wire.exactly_toList]

/-- A text that is no word is read by its mark. -/
theorem read_of_not_isWord {s : String} (h : ¬IsWord s.toList) :
    read s = match s.toList with
      | '0' :: 'x' :: _ => readRoot s
      | chars =>
        match Numeral.read chars with
        | .ok number => .ok (.slot number)
        | .error fault => .error (.badSlot s fault) := by
  rw [IsWord, not_or, not_or] at h
  have hne {word : String} (hword : ¬s.toList = word.toList) : ¬s = word := fun hs => hword (congrArg _ hs)
  exact (if_neg (hne h.1)).trans ((if_neg (hne h.2.1)).trans (if_neg (hne h.2.2)))

theorem names_of_read {s : String} {id : BlockId} (h : read s = .ok id) : Names s.toList id := by
  by_cases hword : IsWord s.toList
  · rcases hword with hs | hs | hs <;> obtain rfl := String.toList_inj.mp hs <;> cases h
    · exact .head
    · exact .genesis
    · exact .finalized
  · rw [read_of_not_isWord hword] at h
    split at h
    · rename_i ds hs
      obtain ⟨hash, rfl, hdenotes⟩ := (readRoot_eq_ok_iff hs).mp h
      rw [hs]
      exact .root hdenotes
    · split at h
      · rename_i number hread
        cases h
        exact .slot (Numeral.read_eq_ok_iff.mp hread)
      · cases h

theorem read_of_names {s : String} {text : List Char} {id : BlockId} (h : Names text id) (hs : s.toList = text) :
    read s = .ok id := by
  cases h with
  | head => rw [String.toList_inj.mp hs]; rfl
  | genesis => rw [String.toList_inj.mp hs]; rfl
  | finalized => rw [String.toList_inj.mp hs]; rfl
  | root hdenotes =>
      rw [read_of_not_isWord (hs ▸ not_isWord_marked _ _), hs]
      exact (readRoot_eq_ok_iff hs).mpr ⟨_, rfl, hdenotes⟩
  | slot hdenotes =>
      have hread := Numeral.read_eq_ok_iff.mpr hdenotes
      obtain ⟨ds, hsign, -, hdigits, -⟩ := hdenotes
      rw [read_of_not_isWord (hs ▸ not_isWord_of_digits hsign hdigits), hs]
      split
      · exact absurd hdigits (not_digits_marked (by decide) hsign)
      · rw [hread]

theorem named_eq_ok_iff {s : String} {id : BlockId} : named s = .ok id ↔ Names s.toList id := by
  have hread : read s = .ok id ↔ Names s.toList id := ⟨names_of_read, fun h => read_of_names h rfl⟩
  rw [← hread, named]
  cases read s with
  | ok other => exact ⟨fun h => congrArg _ (Except.ok.inj h), fun h => congrArg _ (Except.ok.inj h)⟩
  | error fault => exact ⟨(fun h => nomatch h), (fun h => nomatch h)⟩

theorem named_text (id : BlockId) : named id.text = .ok id := named_eq_ok_iff.mpr (names_of_read (read_text id))

/-- A text that names no block is a fault of the caller. -/
theorem named_eq_error_iff {s : String} :
    (∃ fault, named s = .error (.config (.badBlockId fault))) ↔ ∀ id, ¬Names s.toList id := by
  constructor
  · rintro ⟨fault, h⟩ id hid
    rw [named_eq_ok_iff.mpr hid] at h
    cases h
  · intro h
    cases hread : read s with
    | ok id => exact absurd (names_of_read hread) (h id)
    | error fault =>
        refine ⟨fault, ?_⟩
        rw [named, hread]

/-! ### The texts that are names -/

theorem isName_iff {text : List Char} : IsName text ↔ ∃ id, Names text id := by
  constructor
  · intro h
    cases h with
    | word h =>
        rcases h with rfl | rfl | rfl
        · exact ⟨_, .head⟩
        · exact ⟨_, .genesis⟩
        · exact ⟨_, .finalized⟩
    | root hsize h =>
        obtain ⟨hash, hdenotes⟩ := @Hex.exists_denotes _ 32 hsize h
        exact ⟨_, .root hdenotes⟩
    | slot hsign hne h hfits => exact ⟨_, .slot ⟨_, hsign, hne, h, (UInt64.toNat_ofNat_of_lt' hfits).symm⟩⟩
  · rintro ⟨id, h⟩
    cases h with
    | head => exact .word (.inl rfl)
    | genesis => exact .word (.inr (.inl rfl))
    | finalized => exact .word (.inr (.inr rfl))
    | @root ds hash h =>
        refine .root ?_ h.exists_digit
        rw [h.length_eq, hash.length_toList]
    | slot h =>
        obtain ⟨ds, hsign, hne, hdigits, hvalue⟩ := h
        exact .slot hsign hne hdigits (hvalue ▸ UInt64.toNat_lt _)

theorem not_isName_of_nearMiss {text : List Char} (h : NearMiss text) : ¬IsName text := by
  intro hname
  cases h with
  | upperMark ds =>
      cases hname with
      | word hword => exact not_isWord_marked _ _ hword
      | slot hsign hne hdigits => exact not_digits_marked (by decide) hsign hdigits
  | size hlength =>
      cases hname with
      | word hword => exact not_isWord_marked _ _ hword
      | root hsize => exact hlength hsize
      | slot hsign hne hdigits => exact not_digits_marked (by decide) hsign hdigits
  | unmarked hds hletter =>
      cases hname with
      | word hword =>
          obtain ⟨c, hc, hno, -⟩ := exists_letter_of_isWord hword
          exact not_isDigit hno (hds c hc)
      | root => exact not_isDigit (by decide) (hds 'x' (by simp))
      | slot hsign hne hdigits =>
          obtain ⟨c, hc, hnot⟩ := hletter
          rcases hsign with rfl | rfl
          · exact hnot (hdigits c hc)
          · exact not_isDigit (by decide) (hds '+' (by simp))
  | tooLarge hsign hdigits hlarge =>
      cases hname with
      | word hword => exact not_isWord_of_digits hsign hdigits hword
      | root => exact not_digits_marked (by decide) hsign hdigits
      | slot hother hne hmore hfits =>
          rw [digits_unique hother hmore hsign hdigits] at hfits
          exact absurd hfits (Nat.not_lt.mpr hlarge)

/-! ### The canonical name -/

theorem isCanonical_text (id : BlockId) : IsCanonical id.text.toList := by
  cases id with
  | head => exact .word (.inl rfl)
  | genesis => exact .word (.inr (.inl rfl))
  | finalized => exact .word (.inr (.inr rfl))
  | slot number =>
      rw [text, Numeral.text, String.toList_ofList]
      exact .slot (Numeral.isCanonical_digits _)
  | root hash =>
      rw [text, String.toList_ofList]
      exact .root (Hex.eq_flatMap_digits_iff.mp rfl).2

/-- Of the names of a block, the canonical one is the one that is written. -/
theorem eq_text_of_isCanonical {text : List Char} {id : BlockId} (h : Names text id) (hcanonical : IsCanonical text) :
    text = id.text.toList := by
  cases h with
  | head => rfl
  | genesis => rfl
  | finalized => rfl
  | root hdenotes =>
      rw [BlockId.text, String.toList_ofList, Hex.encode]
      cases hcanonical with
      | word hword => exact absurd hword (not_isWord_marked _ _)
      | root hlower => rw [Hex.eq_flatMap_digits_iff.mpr ⟨hdenotes, hlower⟩]
      | slot hplain => exact absurd hplain.2.1 (not_digits_marked (by decide) (.inl rfl))
  | slot hdenotes =>
      rw [BlockId.text, Numeral.text, String.toList_ofList, Numeral.eq_digits_iff]
      refine ⟨hdenotes, ?_⟩
      obtain ⟨ds, hsign, -, hdigits, -⟩ := hdenotes
      cases hcanonical with
      | word hword => exact absurd hword (not_isWord_of_digits hsign hdigits)
      | root hlower => exact absurd hdigits (not_digits_marked (by decide) hsign)
      | slot hplain => exact hplain

/-- The name that is written is read as the block, so two blocks never have the same. A text is read exactly if it is
a name, and then as the block that it names; any other text is a fault of the caller, and so is every text that comes
close. The name that is written is the canonical one. Two texts are read as one block exactly if both are read and the
same name is written for what they are read as. -/
theorem names_are_read_and_written :
    (∀ id, named id.text = .ok id) ∧
      (∀ a b : BlockId, a.text = b.text ↔ a = b) ∧
      (∀ s id, named s = .ok id ↔ Names s.toList id) ∧
      (∀ s, (∃ id, named s = .ok id) ↔ IsName s.toList) ∧
      (∀ s, (∃ fault, named s = .error (.config (.badBlockId fault))) ↔ ¬IsName s.toList) ∧
      (∀ s, NearMiss s.toList → ∃ fault, named s = .error (.config (.badBlockId fault))) ∧
      (∀ s id, s = id.text ↔ named s = .ok id ∧ IsCanonical s.toList) ∧
      ∀ s t, (∃ id, named s = .ok id ∧ named t = .ok id) ↔
        ∃ a b, named s = .ok a ∧ named t = .ok b ∧ a.text = b.text := by
  have herror (s : String) : (∃ fault, named s = .error (.config (.badBlockId fault))) ↔ ¬IsName s.toList := by
    rw [named_eq_error_iff, isName_iff, not_exists]
  refine ⟨named_text, fun a b => ⟨text_inj, fun h => congrArg _ h⟩, fun s id => named_eq_ok_iff, fun s => ?_, herror,
    fun s h => (herror s).mpr (not_isName_of_nearMiss h), fun s id => ⟨?_, fun h => ?_⟩, fun s t => ⟨?_, ?_⟩⟩
  · simp only [named_eq_ok_iff, isName_iff]
  · rintro rfl
    exact ⟨named_text id, isCanonical_text id⟩
  · exact String.toList_inj.mp (eq_text_of_isCanonical (named_eq_ok_iff.mp h.1) h.2)
  · rintro ⟨id, hs, ht⟩
    exact ⟨id, id, hs, ht, rfl⟩
  · rintro ⟨a, b, hs, ht, htext⟩
    obtain rfl := text_inj htext
    exact ⟨a, hs, ht⟩

/-- A slot behind a sign and zeros, its canonical name, and a mark with the wrong letter. -/
theorem names_are_read_and_written_slot :
    named "+0042" = .ok (.slot 42) ∧ (BlockId.slot 42).text = "42" ∧ NearMiss "0X42".toList ∧
      ∃ fault, named "0X42" = .error (.config (.badBlockId fault)) := by
  obtain ⟨-, -, hread, -, -, hmiss, hwritten, -⟩ := names_are_read_and_written
  have hnear : NearMiss "0X42".toList := .upperMark ['4', '2']
  have hname : named "42" = .ok (.slot 42) := (hread "42" _).mpr (.slot ⟨['4', '2'], .inl rfl, by decide, by simp, rfl⟩)
  refine ⟨(hread "+0042" _).mpr (.slot ⟨['0', '0', '4', '2'], .inr rfl, by decide, by simp, rfl⟩), ?_, hnear, hmiss _ hnear⟩
  exact ((hwritten "42" _).mpr ⟨hname, .slot (by simp [Numeral.IsCanonical])⟩).symm

end ChainHead.BlockId
