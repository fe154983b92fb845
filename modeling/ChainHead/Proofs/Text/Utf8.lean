import ChainHead.Text.Utf8
import Mathlib.Tactic.SplitIfs

/-! What UTF-8 writes it reads back, and it reads nothing else: the cut into pieces gives the characters of a text that
was written, and bytes of which all pieces are characters are those of the characters. An ASCII byte is a piece of its
own wherever it stands, so that bytes can be parted there. -/

namespace ChainHead.Utf8

/-! ### The first byte of a character -/

theorem start_of_ascii {b : UInt8} (h : b.toNat < 0x80) : start b = .inl (.char (Char.ofNat b.toNat)) := by
  rw [start, if_pos (UInt8.lt_iff_toNat_lt.mpr h)]

theorem start_of_two {n : Nat} (hlow : 2 ≤ n) (hhigh : n < 32) :
    start (.ofNat (n + 0xc0)) = .inr ⟨1, 1, 0x80, 0xbf, n⟩ := by
  have hb := UInt8.toNat_ofNat_of_lt' (show n + 0xc0 < 256 by omega)
  simp only [start, UInt8.lt_iff_toNat_lt, hb, UInt8.reduceToNat]
  rw [if_neg (by omega), if_neg (by omega), if_pos (by omega), show (n + 0xc0) % 32 = n by omega]

theorem start_of_three {n : Nat} (hhigh : n < 16) :
    start (.ofNat (n + 0xe0)) =
      .inr ⟨1, 2, if n = 0 then 0xa0 else 0x80, if n = 13 then 0x9f else 0xbf, n⟩ := by
  have hb := UInt8.toNat_ofNat_of_lt' (show n + 0xe0 < 256 by omega)
  simp only [start, UInt8.lt_iff_toNat_lt, ← UInt8.toNat_inj, hb, UInt8.reduceToNat]
  rw [if_neg (by omega), if_neg (by omega), if_neg (by omega), if_pos (by omega),
    show (n + 0xe0) % 16 = n by omega]
  simp only [show n + 224 = 224 ↔ n = 0 by omega, show n + 224 = 237 ↔ n = 13 by omega]

theorem start_of_four {n : Nat} (hhigh : n < 5) :
    start (.ofNat (n + 0xf0)) =
      .inr ⟨1, 3, if n = 0 then 0x90 else 0x80, if n = 4 then 0x8f else 0xbf, n⟩ := by
  have hb := UInt8.toNat_ofNat_of_lt' (show n + 0xf0 < 256 by omega)
  simp only [start, UInt8.lt_iff_toNat_lt, ← UInt8.toNat_inj, hb, UInt8.reduceToNat]
  rw [if_neg (by omega), if_neg (by omega), if_neg (by omega), if_neg (by omega), if_pos (by omega),
    show (n + 0xf0) % 8 = n by omega]
  simp only [show n + 240 = 240 ↔ n = 0 by omega, show n + 240 = 244 ↔ n = 4 by omega]

/-! ### The bytes behind it -/

theorem fits_ofNat {p : Pending} {n : Nat} (hlow : p.low.toNat ≤ n + 0x80) (hhigh : n + 0x80 ≤ p.high.toNat) :
    p.fits (.ofNat (n + 0x80)) = true := by
  have hb := UInt8.toNat_ofNat_of_lt' (show n + 0x80 < 256 by have := p.high.toNat_lt; omega)
  simp only [Pending.fits, Bool.and_eq_true, decide_eq_true_eq, UInt8.le_iff_toNat_le, hb]
  exact ⟨hlow, hhigh⟩

theorem piecesFrom_more {p : Pending} {n : Nat} (hn : n < 64) (hmissing : 1 < p.missing)
    (hlow : p.low.toNat ≤ n + 0x80) (hhigh : n + 0x80 ≤ p.high.toNat) (rest : List UInt8) :
    piecesFrom (some p) (.ofNat (n + 0x80) :: rest) =
      piecesFrom (some ⟨p.seen + 1, p.missing - 1, 0x80, 0xbf, p.code * 64 + n⟩) rest := by
  have hb := UInt8.toNat_ofNat_of_lt' (show n + 0x80 < 256 by omega)
  rw [piecesFrom, if_pos (fits_ofNat hlow hhigh)]
  simp only [Pending.push, hb]
  rw [if_neg (by omega), show (n + 0x80) % 64 = n by omega]

theorem piecesFrom_last {p : Pending} {n : Nat} (hn : n < 64) (hmissing : p.missing ≤ 1)
    (hlow : p.low.toNat ≤ n + 0x80) (hhigh : n + 0x80 ≤ p.high.toNat) (rest : List UInt8) :
    piecesFrom (some p) (.ofNat (n + 0x80) :: rest) =
      .char (Char.ofNat (p.code * 64 + n)) :: piecesFrom none rest := by
  have hb := UInt8.toNat_ofNat_of_lt' (show n + 0x80 < 256 by omega)
  rw [piecesFrom, if_pos (fits_ofNat hlow hhigh)]
  simp only [Pending.push, hb]
  rw [if_pos hmissing, show (n + 0x80) % 64 = n by omega]

/-- The bytes of a character are one piece, whatever stands behind them. -/
theorem piecesFrom_encodeChar (c : Char) (rest : List UInt8) :
    piecesFrom none (String.utf8EncodeChar c ++ rest) = .char c :: piecesFrom none rest := by
  have hvalid : c.val.toNat < 0xd800 ∨ 0xdfff < c.val.toNat ∧ c.val.toNat < 0x110000 := c.valid
  have hchar (n : Nat) (h : n = c.val.toNat) : Char.ofNat n = c := by
    rw [h]
    exact Char.ofNat_toNat c
  simp only [String.utf8EncodeChar]
  generalize c.val.toNat = v at hvalid hchar ⊢
  split_ifs with hone htwo hthree
  · have hb := UInt8.toNat_ofNat_of_lt' (show v < 256 by omega)
    rw [List.cons_append, List.nil_append, piecesFrom, start_of_ascii (by omega), hb, hchar _ rfl]
  · simp only [List.cons_append, List.nil_append]
    rw [piecesFrom, start_of_two (by omega) (by omega)]
    simp only
    rw [piecesFrom_last (by omega) (by simp) (by simp) (by simp; omega), hchar _ (by simp only; omega)]
  · simp only [List.cons_append, List.nil_append]
    rw [piecesFrom, start_of_three (by omega)]
    simp only
    rw [piecesFrom_more (by omega) (by simp) (by simp only; split_ifs <;> simp; omega)
        (by simp only; split_ifs <;> simp <;> omega),
      piecesFrom_last (by omega) (by simp) (by simp) (by simp; omega), hchar _ (by simp only; omega)]
  · simp only [List.cons_append, List.nil_append]
    rw [piecesFrom, start_of_four (by omega)]
    simp only
    rw [piecesFrom_more (by omega) (by simp) (by simp only; split_ifs <;> simp; omega)
        (by simp only; split_ifs <;> simp <;> omega),
      piecesFrom_more (by omega) (by simp) (by simp) (by simp; omega),
      piecesFrom_last (by omega) (by simp) (by simp) (by simp; omega), hchar _ (by simp only; omega)]

/-- A byte of a character is the character itself, or no ASCII byte. -/
theorem toNat_of_mem_encodeChar {c : Char} {b : UInt8} (h : b ∈ String.utf8EncodeChar c) :
    b.toNat = c.val.toNat ∨ 0x80 ≤ b.toNat := by
  have hvalid : c.val.toNat < 0xd800 ∨ 0xdfff < c.val.toNat ∧ c.val.toNat < 0x110000 := c.valid
  have hofNat {n : Nat} (hn : n < 256) : (UInt8.ofNat n).toNat = n := UInt8.toNat_ofNat_of_lt' hn
  simp only [String.utf8EncodeChar] at h
  generalize c.val.toNat = v at h hvalid ⊢
  split_ifs at h with hone htwo hthree
  · rw [List.mem_singleton.mp h, hofNat (by omega)]
    exact .inl rfl
  all_goals
    right
    simp only [List.mem_cons, List.not_mem_nil, or_false] at h
    rcases h with rfl | rfl | rfl | rfl <;> rw [hofNat (by omega)] <;> omega

theorem pieces_encode_append (text : List Char) (rest : List UInt8) :
    pieces (encode text ++ rest) = text.map .char ++ pieces rest := by
  induction text with
  | nil => rfl
  | cons c text ih =>
      rw [pieces, encode_cons, List.append_assoc, piecesFrom_encodeChar, List.map_cons, List.cons_append]
      exact congrArg _ ih

theorem pieces_encode (text : List Char) : pieces (encode text) = text.map .char := by
  have h := pieces_encode_append text []
  rwa [List.append_nil, show pieces [] = [] from rfl, List.append_nil] at h

theorem decode?_encode (text : List Char) : decode? (encode text) = some text := by
  rw [decode?, pieces_encode]
  induction text with
  | nil => rfl
  | cons c text ih =>
      rw [List.map_cons, List.mapM_cons, ih]
      rfl

theorem decodeLossy_encode (text : List Char) : decodeLossy (encode text) = text := by
  rw [decodeLossy, pieces_encode, List.map_map]
  exact List.map_id text

theorem piecesFrom_some_ne_nil (p : Pending) (bytes : List UInt8) : piecesFrom (some p) bytes ≠ [] := by
  induction bytes generalizing p with
  | nil => simp [piecesFrom]
  | cons b rest ih =>
      rw [piecesFrom]
      split
      · cases p.push b with
        | inl piece => simp
        | inr q => exact ih q
      · simp

theorem decodeLossy_ne_nil {bytes : List UInt8} (h : bytes ≠ []) : decodeLossy bytes ≠ [] := by
  obtain ⟨b, rest, rfl⟩ := List.exists_cons_of_ne_nil h
  rw [decodeLossy, ne_eq, List.map_eq_nil_iff, pieces, piecesFrom]
  cases start b with
  | inl piece => simp
  | inr p => exact piecesFrom_some_ne_nil p rest

/-! ### Bytes without a fault -/

theorem faultFrom_eq_none_iff (before : Nat) (list : List Piece) :
    faultFrom before list = none ↔ ∀ piece ∈ list, piece.char?.isSome := by
  induction list generalizing before with
  | nil => simp [faultFrom]
  | cons piece rest ih => cases piece <;> simp [faultFrom, ih, Piece.char?]

theorem fault?_eq_none_iff (bytes : List UInt8) :
    fault? bytes = none ↔ ∀ piece ∈ pieces bytes, piece.char?.isSome :=
  faultFrom_eq_none_iff 0 (pieces bytes)

theorem fault?_encode (text : List Char) : fault? (encode text) = none := by
  rw [fault?_eq_none_iff, pieces_encode]
  simp [Piece.char?]

/-! ### Parting bytes at an ASCII byte -/

/-- A piece that is no longer cut short by the end of the input, because a byte follows that breaks it off. -/
def Piece.followed : Piece → Piece
  | .cut size => .broken size
  | piece => piece

theorem Piece.char?_followed (piece : Piece) : piece.followed.char? = piece.char? := by
  cases piece <;> rfl

theorem start_followed {b : UInt8} {piece : Piece} (h : start b = .inl piece) : piece.followed = piece := by
  simp only [start] at h
  split_ifs at h <;> cases h <;> rfl

theorem push_followed {p : Pending} {b : UInt8} {piece : Piece} (h : p.push b = .inl piece) :
    piece.followed = piece := by
  simp only [Pending.push] at h
  split_ifs at h
  cases h
  rfl

def Pending.Sound (p : Pending) : Prop := 0x80 ≤ p.low.toNat

theorem start_sound {b : UInt8} {p : Pending} (h : start b = .inr p) : p.Sound := by
  simp only [start] at h
  split_ifs at h <;> cases h <;> simp [Pending.Sound]

theorem push_sound {p q : Pending} {b : UInt8} (h : p.push b = .inr q) : q.Sound := by
  simp only [Pending.push] at h
  split_ifs at h
  cases h
  simp [Pending.Sound]

theorem Pending.Sound.not_fits {p : Pending} (h : p.Sound) {b : UInt8} (hb : b.toNat < 0x80) :
    p.fits b = false := by
  have hlow : 0x80 ≤ p.low.toNat := h
  simp only [fits, Bool.and_eq_false_iff, decide_eq_false_iff_not, UInt8.le_iff_toNat_le]
  omega

/-- A byte that breaks a character off opens the next piece as if nothing stood before it. -/
theorem piecesFrom_of_not_fits {p : Pending} {b : UInt8} (h : p.fits b = false) (rest : List UInt8) :
    piecesFrom (some p) (b :: rest) = .broken p.seen :: piecesFrom none (b :: rest) := by
  rw [piecesFrom, piecesFrom, if_neg (by simp [h])]

theorem piecesFrom_ascii {b : UInt8} (hb : b.toNat < 0x80) (front back : List UInt8) (state : Option Pending)
    (hsound : ∀ p ∈ state, p.Sound) :
    piecesFrom state (front ++ b :: back) =
      (piecesFrom state front).map .followed ++ .char (Char.ofNat b.toNat) :: pieces back := by
  induction front generalizing state with
  | nil =>
      cases state with
      | none => simp [piecesFrom, start_of_ascii hb, pieces]
      | some p =>
          have hfits := (hsound p rfl).not_fits hb
          simp [piecesFrom, hfits, start_of_ascii hb, pieces, Piece.followed]
  | cons a front ih =>
      have hnone : piecesFrom none (a :: front ++ b :: back) =
          (piecesFrom none (a :: front)).map .followed ++ .char (Char.ofNat b.toNat) :: pieces back := by
        rw [List.cons_append, piecesFrom, piecesFrom]
        cases hstart : start a with
        | inl piece => simp [ih none (by simp), start_followed hstart]
        | inr p => exact ih (some p) (by simpa using start_sound hstart)
      cases state with
      | none => exact hnone
      | some p =>
          by_cases hfits : p.fits a = true
          · rw [List.cons_append, piecesFrom, piecesFrom, if_pos hfits, if_pos hfits]
            cases hpush : p.push a with
            | inl piece => simp [ih none (by simp), push_followed hpush]
            | inr q => exact ih (some q) (by simpa using push_sound hpush)
          · rw [List.cons_append, piecesFrom_of_not_fits (by simpa using hfits),
              piecesFrom_of_not_fits (by simpa using hfits), ← List.cons_append, hnone]
            rfl

theorem pieces_ascii {b : UInt8} (hb : b.toNat < 0x80) (front back : List UInt8) :
    pieces (front ++ b :: back) =
      (pieces front).map .followed ++ .char (Char.ofNat b.toNat) :: pieces back :=
  piecesFrom_ascii hb front back none (by simp)

theorem fault?_ascii {b : UInt8} (hb : b.toNat < 0x80) (front back : List UInt8) :
    fault? (front ++ b :: back) = none ↔ fault? front = none ∧ fault? back = none := by
  simp only [fault?_eq_none_iff, pieces_ascii hb, List.mem_append, List.mem_map, List.mem_cons]
  constructor
  · intro h
    refine ⟨fun piece hpiece => ?_, fun piece hpiece => h piece (.inr (.inr hpiece))⟩
    rw [← Piece.char?_followed]
    exact h _ (.inl ⟨piece, hpiece, rfl⟩)
  · rintro ⟨hfront, hback⟩ piece (⟨before, hbefore, rfl⟩ | rfl | hpiece)
    · rw [Piece.char?_followed]
      exact hfront before hbefore
    · rfl
    · exact hback piece hpiece

/-! ### Only what was written is read -/

theorem toNat_val_ofNat {n : Nat} (h : n < 0xd800 ∨ 0xdfff < n ∧ n < 0x110000) : (Char.ofNat n).val.toNat = n := by
  have hvalid : n.isValidChar := h
  rw [Char.ofNat, dif_pos hvalid]
  rfl

theorem ofNat_eq (a : UInt8) {n : Nat} (h : n = a.toNat) : UInt8.ofNat n = a := by
  rw [h, UInt8.ofNat_toNat]

section

variable {a b c d : UInt8}

theorem encodeChar_of_one (ha : a.toNat < 0x80) : String.utf8EncodeChar (Char.ofNat a.toNat) = [a] := by
  rw [String.utf8EncodeChar, toNat_val_ofNat (by omega), if_pos (by omega), ofNat_eq a rfl]

theorem encodeChar_of_two (ha : 0xc2 ≤ a.toNat ∧ a.toNat < 0xe0) (hb : 0x80 ≤ b.toNat ∧ b.toNat ≤ 0xbf) :
    String.utf8EncodeChar (Char.ofNat (a.toNat % 32 * 64 + b.toNat % 64)) = [a, b] := by
  rw [String.utf8EncodeChar, toNat_val_ofNat (by omega), if_neg (by omega), if_pos (by omega),
    ofNat_eq a (by omega), ofNat_eq b (by omega)]

theorem encodeChar_of_three (ha : 0xe0 ≤ a.toNat ∧ a.toNat < 0xf0) (hb : 0x80 ≤ b.toNat ∧ b.toNat ≤ 0xbf)
    (hlow : a.toNat = 0xe0 → 0xa0 ≤ b.toNat) (hhigh : a.toNat = 0xed → b.toNat ≤ 0x9f)
    (hc : 0x80 ≤ c.toNat ∧ c.toNat ≤ 0xbf) :
    String.utf8EncodeChar (Char.ofNat ((a.toNat % 16 * 64 + b.toNat % 64) * 64 + c.toNat % 64)) = [a, b, c] := by
  rw [String.utf8EncodeChar, toNat_val_ofNat (by omega), if_neg (by omega), if_neg (by omega), if_pos (by omega),
    ofNat_eq a (by omega), ofNat_eq b (by omega), ofNat_eq c (by omega)]

theorem encodeChar_of_four (ha : 0xf0 ≤ a.toNat ∧ a.toNat < 0xf5) (hb : 0x80 ≤ b.toNat ∧ b.toNat ≤ 0xbf)
    (hlow : a.toNat = 0xf0 → 0x90 ≤ b.toNat) (hhigh : a.toNat = 0xf4 → b.toNat ≤ 0x8f)
    (hc : 0x80 ≤ c.toNat ∧ c.toNat ≤ 0xbf) (hd : 0x80 ≤ d.toNat ∧ d.toNat ≤ 0xbf) :
    String.utf8EncodeChar (Char.ofNat (((a.toNat % 8 * 64 + b.toNat % 64) * 64 + c.toNat % 64) * 64 + d.toNat % 64)) =
      [a, b, c, d] := by
  rw [String.utf8EncodeChar, toNat_val_ofNat (by omega), if_neg (by omega), if_neg (by omega), if_neg (by omega),
    ofNat_eq a (by omega), ofNat_eq b (by omega), ofNat_eq c (by omega), ofNat_eq d (by omega)]

end

/-- Bytes begin with those of the first character of a text, and behind them the other characters are cut. -/
def OpensWith (text : List Char) (bytes : List UInt8) : Prop :=
  ∃ c others rest, text = c :: others ∧ bytes = String.utf8EncodeChar c ++ rest ∧ pieces rest = others.map .char

theorem opensWith_of_char {text : List Char} {c : Char} {bytes rest : List UInt8}
    (h : .char c :: pieces rest = text.map .char) (hbytes : String.utf8EncodeChar c = bytes) :
    OpensWith text (bytes ++ rest) := by
  cases text with
  | nil => cases h
  | cons d others =>
      obtain ⟨hc, hrest⟩ := List.cons.inj h
      cases hc
      exact ⟨c, others, rest, rfl, hbytes ▸ rfl, hrest⟩

/-- Behind the beginning of a character stands a byte that fits it. -/
theorem exists_of_piecesFrom_some {p : Pending} {bytes : List UInt8} {text : List Char}
    (h : piecesFrom (some p) bytes = text.map .char) :
    ∃ b rest, bytes = b :: rest ∧ (p.low.toNat ≤ b.toNat ∧ b.toNat ≤ p.high.toNat) ∧
      (match p.push b with
        | .inl piece => piece :: piecesFrom none rest
        | .inr q => piecesFrom (some q) rest) = text.map .char := by
  cases bytes with
  | nil => cases text <;> cases h
  | cons b rest =>
      rw [piecesFrom] at h
      split_ifs at h with hfits
      · rw [Pending.fits, Bool.and_eq_true, decide_eq_true_eq, decide_eq_true_eq] at hfits
        exact ⟨b, rest, rfl, hfits, h⟩
      · cases text <;> cases h

theorem opensWith_of_pieces {a : UInt8} {more : List UInt8} {text : List Char}
    (h : pieces (a :: more) = text.map .char) : OpensWith text (a :: more) := by
  have hbroken {size : Nat} {others : List Piece} (h : .broken size :: others = text.map .char) : False := by
    cases text <;> cases h
  have hbounds {n : Nat} {p q : Prop} [Decidable p] [Decidable q] {x y : UInt8} (hx : 0x80 ≤ x.toNat)
      (hy : y.toNat ≤ 0xbf) (h : (if p then x else 0x80).toNat ≤ n ∧ n ≤ (if q then y else 0xbf).toNat) :
      0x80 ≤ n ∧ n ≤ 0xbf := by
    constructor
    · refine Nat.le_trans ?_ h.1
      split_ifs
      · exact hx
      · exact Nat.le_refl _
    · refine Nat.le_trans h.2 ?_
      split_ifs
      · exact hy
      · exact Nat.le_refl _
  rw [pieces, piecesFrom, start] at h
  simp only [UInt8.lt_iff_toNat_lt, ← UInt8.toNat_inj, UInt8.reduceToNat] at h
  by_cases hone : a.toNat < 0x80
  · rw [if_pos hone] at h
    exact opensWith_of_char h (encodeChar_of_one hone)
  by_cases hlate : a.toNat < 0xc2
  · rw [if_neg hone, if_pos hlate] at h
    exact (hbroken h).elim
  by_cases htwo : a.toNat < 0xe0
  · rw [if_neg hone, if_neg hlate, if_pos htwo] at h
    obtain ⟨b, rest, rfl, hb, h⟩ := exists_of_piecesFrom_some h
    exact opensWith_of_char h (encodeChar_of_two ⟨by omega, htwo⟩ hb)
  by_cases hthree : a.toNat < 0xf0
  · rw [if_neg hone, if_neg hlate, if_neg htwo, if_pos hthree] at h
    obtain ⟨b, rest, rfl, hb, h⟩ := exists_of_piecesFrom_some h
    obtain ⟨c, rest, rfl, hc, h⟩ := exists_of_piecesFrom_some h
    have hlow : a.toNat = 0xe0 → 0xa0 ≤ b.toNat := fun heq => by simpa [heq] using hb.1
    have hhigh : a.toNat = 0xed → b.toNat ≤ 0x9f := fun heq => by simpa [heq] using hb.2
    exact opensWith_of_char h
      (encodeChar_of_three ⟨by omega, hthree⟩ (hbounds (by decide) (by decide) hb) hlow hhigh hc)
  by_cases hfour : a.toNat < 0xf5
  · rw [if_neg hone, if_neg hlate, if_neg htwo, if_neg hthree, if_pos hfour] at h
    obtain ⟨b, rest, rfl, hb, h⟩ := exists_of_piecesFrom_some h
    obtain ⟨c, rest, rfl, hc, h⟩ := exists_of_piecesFrom_some h
    obtain ⟨d, rest, rfl, hd, h⟩ := exists_of_piecesFrom_some h
    have hlow : a.toNat = 0xf0 → 0x90 ≤ b.toNat := fun heq => by simpa [heq] using hb.1
    have hhigh : a.toNat = 0xf4 → b.toNat ≤ 0x8f := fun heq => by simpa [heq] using hb.2
    exact opensWith_of_char h
      (encodeChar_of_four ⟨by omega, hfour⟩ (hbounds (by decide) (by decide) hb) hlow hhigh hc hd)
  · rw [if_neg hone, if_neg hlate, if_neg htwo, if_neg hthree, if_neg hfour] at h
    exact (hbroken h).elim

/-- Bytes that are cut into characters are those of the characters. -/
theorem eq_encode_of_pieces {bytes : List UInt8} {text : List Char} (h : pieces bytes = text.map .char) :
    bytes = encode text := by
  induction text generalizing bytes with
  | nil =>
      cases bytes with
      | nil => rfl
      | cons a more =>
          obtain ⟨c, others, rest, htext, -, -⟩ := opensWith_of_pieces h
          cases htext
  | cons c text ih =>
      cases bytes with
      | nil => cases h
      | cons a more =>
          obtain ⟨c, others, rest, htext, hbytes, hrest⟩ := opensWith_of_pieces h
          cases htext
          rw [hbytes, encode_cons, ih hrest]

theorem map_char_of_mapM {list : List Piece} {text : List Char} (h : list.mapM Piece.char? = some text) :
    list = text.map .char := by
  induction list generalizing text with
  | nil => cases h; rfl
  | cons piece list ih =>
      rw [List.mapM_cons] at h
      cases piece with
      | char c =>
          cases hrest : list.mapM Piece.char? with
          | none =>
              rw [hrest] at h
              cases h
          | some rest =>
              rw [hrest] at h
              cases h
              rw [ih hrest]
              rfl
      | broken size => cases h
      | cut size => cases h

theorem decode?_eq_some_iff {bytes : List UInt8} {text : List Char} : decode? bytes = some text ↔ bytes = encode text :=
  ⟨fun h => eq_encode_of_pieces (map_char_of_mapM h), fun h => h ▸ decode?_encode text⟩

end ChainHead.Utf8
