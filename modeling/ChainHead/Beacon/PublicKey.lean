import ChainHead.Text.Blank
import ChainHead.Wire.Record

/-! Public keys. A key is known by one canonical text: blanks around it and one mark `0x` or `0X` are
dropped, ASCII letters are lower case, and the mark `0x` stands in front. Any text has such a form, and
the form of a form is the form itself, which is the invariant of the type. -/

namespace ChainHead

namespace PublicKey

def unmark : List Char → List Char
  | '0' :: 'x' :: rest => rest
  | '0' :: 'X' :: rest => rest
  | text => text

def normalize (text : List Char) : List Char :=
  '0' :: 'x' :: (unmark (Blank.trim text)).map Char.toLower

theorem isBlank_toLower (c : Char) : Blank.isBlank c.toLower = Blank.isBlank c := by
  unfold Char.toLower
  split
  · rename_i h
    have hc : Blank.isBlank c = false := by
      simp only [Blank.isBlank, Bool.or_eq_false_iff, Bool.and_eq_false_iff, decide_eq_false_iff_not,
        beq_eq_false_iff_ne, ne_eq, ← UInt32.toNat_inj, UInt32.le_iff_toNat_le] at h ⊢
      simp at h ⊢
      omega
    rw [hc]
    simp only [Blank.isBlank, Bool.or_eq_false_iff, Bool.and_eq_false_iff, decide_eq_false_iff_not,
      beq_eq_false_iff_ne, ne_eq, ← UInt32.toNat_inj, UInt32.le_iff_toNat_le, UInt32.toNat_add] at h ⊢
    simp at h ⊢
    omega
  · rfl

theorem toLower_toLower (c : Char) : c.toLower.toLower = c.toLower := by
  unfold Char.toLower
  split
  · rename_i h
    have low : ¬ ((c.val + 32) ≥ 'A'.val ∧ (c.val + 32) ≤ 'Z'.val) := by
      simp only [ge_iff_le, UInt32.le_iff_toNat_le, UInt32.toNat_add] at h ⊢
      simp at h ⊢
      omega
    exact dif_neg low
  · rfl

theorem getLast?_of_unmark {text : List Char} {c : Char} (h : (unmark text).getLast? = some c) :
    text.getLast? = some c := by
  unfold unmark at h
  split at h
  · simp [List.getLast?_cons, h]
  · simp [List.getLast?_cons, h]
  · exact h

theorem last_of_normalize {text : List Char} :
    ∀ c ∈ (normalize text).getLast?, Blank.isBlank c = false := by
  intro c hc
  simp only [normalize, List.getLast?_cons, Option.getD_some, Option.mem_def, Option.some.injEq,
    List.getLast?_map] at hc
  cases hl : (unmark (Blank.trim text)).getLast? with
  | none =>
    rw [hl] at hc
    subst hc
    decide
  | some d =>
    rw [hl] at hc
    have hd := Blank.getLast?_trimEnd (getLast?_of_unmark hl)
    simp only [Option.map_some, Option.getD_some] at hc
    rw [← hc, isBlank_toLower, hd]

theorem normalize_normalize (text : List Char) : normalize (normalize text) = normalize text := by
  have h : Blank.trim (normalize text) = normalize text :=
    Blank.trim_eq_self (by decide) last_of_normalize
  show '0' :: 'x' :: (unmark (Blank.trim (normalize text))).map Char.toLower = normalize text
  rw [h]
  simp only [normalize, unmark, List.map_map]
  congr 2
  exact List.map_congr_left fun c _ => toLower_toLower c

end PublicKey

structure PublicKey where
  text : String
  canonical : PublicKey.normalize text.toList = text.toList
deriving DecidableEq

namespace PublicKey

def of (text : String) : PublicKey where
  text := String.ofList (PublicKey.normalize text.toList)
  canonical := by simp only [String.toList_ofList, normalize_normalize]

theorem of_text (k : PublicKey) : of k.text = k := by
  cases k with
  | mk text canonical => simp only [of, canonical, String.ofList_toList]

/-- The key that a part of a text names. -/
def ofSlice (part : String.Slice) : PublicKey := of part.copy

/-- A key as a JSON string; any text read names a key. -/
def codec : Wire.Codec PublicKey := Wire.viaText of text

end PublicKey

end ChainHead
