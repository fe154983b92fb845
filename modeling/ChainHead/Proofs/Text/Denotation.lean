import ChainHead.Proofs.Text.Hex
import ChainHead.Proofs.Text.Numeral
import ChainHead.Proofs.Text.Utf8
import ChainHead.Proofs.Wire.Numbers

/-! What texts in hexadecimal and in decimal denote. The readers accept exactly the texts that denote something, and of
all texts that denote the same one is canonical: the one that is written. -/

namespace ChainHead

/-! ### Hexadecimal texts -/

namespace Hex

/-- A hexadecimal digit, in lower or in upper case, and its value. -/
def IsDigit (c : Char) (value : Nat) : Prop :=
  value < 16 ∧ (c = Nat.digitChar value ∨ c = (Nat.digitChar value).toUpper)

instance (c : Char) (value : Nat) : Decidable (IsDigit c value) := inferInstanceAs (Decidable (_ ∧ _))

/-- Digits denote bytes: two of them the halves of one byte, the high half first. -/
inductive Denotes : List Char → List UInt8 → Prop
  | nil : Denotes [] []
  | cons {a b : Char} {ds : List Char} {byte : UInt8} {bytes : List UInt8} (ha : IsDigit a (byte.toNat / 16))
      (hb : IsDigit b (byte.toNat % 16)) (h : Denotes ds bytes) : Denotes (a :: b :: ds) (byte :: bytes)

/-- A text for bytes: their digits, behind a mark in either case or without a mark. -/
def Spelled (text : List Char) (bytes : List UInt8) : Prop :=
  ∃ ds, (text = ds ∨ text = '0' :: 'x' :: ds ∨ text = '0' :: 'X' :: ds) ∧ Denotes ds bytes

theorem Denotes.length_eq {ds : List Char} {bytes : List UInt8} (h : Denotes ds bytes) :
    ds.length = 2 * bytes.length := by
  induction h with
  | nil => rfl
  | cons ha hb h ih =>
      simp only [List.length_cons, ih]
      omega

theorem Denotes.exists_digit {ds : List Char} {bytes : List UInt8} (h : Denotes ds bytes) :
    ∀ c ∈ ds, ∃ value, IsDigit c value := by
  induction h with
  | nil => exact fun _ hc => nomatch hc
  | cons ha hb h ih => exact List.forall_mem_cons.mpr ⟨⟨_, ha⟩, List.forall_mem_cons.mpr ⟨⟨_, hb⟩, ih⟩⟩

theorem encodeChar_toUpper : ∀ n < 16,
    String.utf8EncodeChar (Nat.digitChar n).toUpper = [(Nat.digitChar n).toUpper.toNat.toUInt8] := by decide

theorem digit?_toUpper : ∀ n < 16, digit? (Nat.digitChar n).toUpper.toNat.toUInt8 = some (UInt8.ofNat n) := by decide

theorem isDigit_of_digit? : ∀ n < 256, ∀ value ∈ digit? (UInt8.ofNat n), n < 0x80 ∧ IsDigit (Char.ofNat n) value.toNat := by
  decide +kernel

/-- A digit is one byte long, and its byte has its value. -/
theorem IsDigit.exists_byte {c : Char} {value : Nat} (h : IsDigit c value) :
    ∃ b, String.utf8EncodeChar c = [b] ∧ digit? b = some (UInt8.ofNat value) := by
  obtain ⟨hlt, rfl | rfl⟩ := h
  · exact ⟨_, encodeChar_digitChar value hlt, digit?_digitByte value hlt⟩
  · exact ⟨_, encodeChar_toUpper value hlt, digit?_toUpper value hlt⟩

theorem Denotes.pairs_eq {ds : List Char} {bytes : List UInt8} (h : Denotes ds bytes) (index : Nat) :
    pairs index (Utf8.encode ds) = .ok bytes := by
  induction h generalizing index with
  | nil => rfl
  | @cons a b ds byte bytes ha hb h ih =>
      obtain ⟨x, hx, hhigh⟩ := ha.exists_byte
      obtain ⟨y, hy, hlow⟩ := hb.exists_byte
      rw [Utf8.encode_cons, Utf8.encode_cons, hx, hy, List.singleton_append, List.singleton_append, pairs, hhigh, hlow]
      simp only [ih, halves]
      rfl

/-- The characters of bytes that are all ASCII. -/
def ascii (bytes : List UInt8) : List Char := bytes.map fun b => Char.ofNat b.toNat

theorem encode_ascii {bytes : List UInt8} (h : ∀ b ∈ bytes, b.toNat < 0x80) : Utf8.encode (ascii bytes) = bytes := by
  induction bytes with
  | nil => rfl
  | cons b rest ih =>
      obtain ⟨hb, hrest⟩ := List.forall_mem_cons.mp h
      rw [ascii, List.map_cons, Utf8.encode_cons, Utf8.encodeChar_of_one hb, ← ascii, ih hrest]
      rfl

/-- A text of which all bytes are ASCII has their characters. -/
theorem eq_ascii_of_encode {text : List Char} (h : ∀ b ∈ Utf8.encode text, b.toNat < 0x80) :
    text = ascii (Utf8.encode text) := by
  have hdecode := Utf8.decode?_encode (ascii (Utf8.encode text))
  rw [encode_ascii h, Utf8.decode?_encode] at hdecode
  exact Option.some.inj hdecode

theorem isDigit_of_digit?_eq {b value : UInt8} (h : digit? b = some value) :
    b.toNat < 0x80 ∧ IsDigit (Char.ofNat b.toNat) value.toNat := by
  refine isDigit_of_digit? b.toNat b.toNat_lt value ?_
  rw [UInt8.ofNat_toNat]
  exact h

/-- Bytes that are read as pairs of digits are ASCII, and their characters denote what is read. -/
theorem denotes_of_pairs {index : Nat} {text bytes : List UInt8} (h : pairs index text = .ok bytes) :
    (∀ b ∈ text, b.toNat < 0x80) ∧ Denotes (ascii text) bytes := by
  fun_induction pairs index text generalizing bytes with
  | case1 =>
      cases h
      exact ⟨by simp, .nil⟩
  | case2 => cases h
  | case3 index a b rest x y hy hx ih =>
      obtain ⟨ha, hhigh⟩ := isDigit_of_digit?_eq hx
      obtain ⟨hb, hlow⟩ := isDigit_of_digit?_eq hy
      cases hrest : pairs (index + 2) rest with
      | error fault =>
          rw [hrest] at h
          cases h
      | ok more =>
          rw [hrest] at h
          cases h
          obtain ⟨hascii, hmore⟩ := ih hrest
          have hbyte : (x * 16 + y).toNat = x.toNat * 16 + y.toNat := by
            have := hhigh.1
            have := hlow.1
            rw [UInt8.toNat_add, UInt8.toNat_mul]
            simp only [UInt8.reduceToNat]
            omega
          have hhalf : (x * 16 + y).toNat / 16 = x.toNat ∧ (x * 16 + y).toNat % 16 = y.toNat := by
            have := hlow.1
            omega
          refine ⟨List.forall_mem_cons.mpr ⟨ha, List.forall_mem_cons.mpr ⟨hb, hascii⟩⟩, .cons ?_ ?_ hmore⟩
          · rw [hhalf.1]
            exact hhigh
          · rw [hhalf.2]
            exact hlow
  | case4 => cases h
  | case5 => cases h

theorem unmark_eq (text : List UInt8) :
    text = unmark text ∨ text = 0x30 :: 0x78 :: unmark text ∨ text = 0x30 :: 0x58 :: unmark text := by
  fun_cases unmark text with
  | case1 rest => exact .inr (.inl rfl)
  | case2 rest => exact .inr (.inr rfl)
  | case3 => exact .inl rfl

/-- The letter of the mark is no digit. -/
theorem Denotes.unmark_eq {ds : List Char} {bytes : List UInt8} (h : Denotes ds bytes) :
    unmark (Utf8.encode ds) = Utf8.encode ds := by
  cases h with
  | nil => rfl
  | @cons a b ds byte bytes ha hb h =>
      obtain ⟨x, hx, -⟩ := ha.exists_byte
      obtain ⟨y, hy, hlow⟩ := hb.exists_byte
      rw [Utf8.encode_cons, Utf8.encode_cons, hx, hy, List.singleton_append, List.singleton_append]
      refine unmark.eq_3 _ (fun rest heq => ?_) fun rest heq => ?_
      · obtain ⟨-, heq⟩ := List.cons.inj heq
        rw [(List.cons.inj heq).1] at hlow
        cases hlow
      · obtain ⟨-, heq⟩ := List.cons.inj heq
        rw [(List.cons.inj heq).1] at hlow
        cases hlow

/-- Behind its mark, if it has one, a text is read exactly if it is a text for bytes. -/
theorem pairs_unmark_eq_ok_iff {text : List Char} {bytes : List UInt8} :
    pairs 0 (unmark (Utf8.encode text)) = .ok bytes ↔ Spelled text bytes := by
  constructor
  · intro h
    obtain ⟨hascii, hdenotes⟩ := denotes_of_pairs h
    refine ⟨_, ?_, hdenotes⟩
    have hmark : ∀ front : List UInt8, (∀ b ∈ front, b.toNat < 0x80) →
        Utf8.encode text = front ++ unmark (Utf8.encode text) →
        text = ascii front ++ ascii (unmark (Utf8.encode text)) := by
      intro front hfront heq
      rw [ascii, ascii, ← List.map_append, ← heq]
      refine eq_ascii_of_encode ?_
      rw [heq]
      exact List.forall_mem_append.mpr ⟨hfront, hascii⟩
    rcases Hex.unmark_eq (Utf8.encode text) with heq | heq | heq
    · exact .inl (hmark [] (by simp) heq)
    · exact .inr (.inl (hmark [0x30, 0x78] (by simp) heq))
    · exact .inr (.inr (hmark [0x30, 0x58] (by simp) heq))
  · rintro ⟨ds, rfl | rfl | rfl, h⟩
    · rw [h.unmark_eq]
      exact h.pairs_eq 0
    · exact h.pairs_eq 0
    · exact h.pairs_eq 0

theorem length_unmark (text : List UInt8) : text.length % 2 = (unmark text).length % 2 := by
  rcases Hex.unmark_eq text with h | h | h
  · rw [← h]
  · rw [h, List.length_cons, List.length_cons]
    exact Nat.add_mod_right _ 2
  · rw [h, List.length_cons, List.length_cons]
    exact Nat.add_mod_right _ 2

theorem length_of_spelled {text : List Char} {bytes : List UInt8} (h : Spelled text bytes) :
    (Utf8.encode text).length % 2 = 0 ∧ (unmark (Utf8.encode text)).length = 2 * bytes.length := by
  have hlength := length_of_pairs (pairs_unmark_eq_ok_iff.mpr h)
  rw [length_unmark, hlength]
  exact ⟨Nat.mul_mod_right 2 _, rfl⟩

theorem decode_eq_ok_iff {text : String} {bytes : List UInt8} :
    decode text = .ok bytes ↔ Spelled text.toList bytes := by
  rw [decode]
  split_ifs with hodd
  · constructor
    · intro h
      cases h
    · exact fun h => absurd (length_of_spelled h).1 hodd
  · exact pairs_unmark_eq_ok_iff

theorem decodeSized_eq_ok_iff {size : Nat} {text : String} {bytes : List UInt8} :
    decodeSized size text = .ok bytes ↔ bytes.length = size ∧ Spelled text.toList bytes := by
  constructor
  · intro h
    refine ⟨length_of_decodeSized h, ?_⟩
    rw [decodeSized] at h
    split_ifs at h
    exact pairs_unmark_eq_ok_iff.mp h
  · rintro ⟨rfl, h⟩
    obtain ⟨heven, hlength⟩ := length_of_spelled h
    rw [decodeSized, if_neg (by simp [heven]), if_neg (by simp [hlength])]
    exact pairs_unmark_eq_ok_iff.mpr h

/-- Digits that are written are digits of what is written. -/
theorem denotes_flatMap_digits (bytes : List UInt8) : Denotes (bytes.flatMap digits) bytes := by
  induction bytes with
  | nil => exact .nil
  | cons b rest ih =>
      have hb := b.toNat_lt
      exact .cons ⟨by omega, .inl rfl⟩ ⟨by omega, .inl rfl⟩ ih

/-- Hexadecimal digits without those in upper case. -/
def IsLower (c : Char) : Prop := '0' ≤ c ∧ c ≤ '9' ∨ 'a' ≤ c ∧ c ≤ 'f'

instance (c : Char) : Decidable (IsLower c) := inferInstanceAs (Decidable (_ ∨ _))

theorem isLower_digitChar : ∀ n < 16, IsLower (Nat.digitChar n) := by decide

theorem toUpper_eq_of_isLower : ∀ n < 16, IsLower (Nat.digitChar n).toUpper →
    (Nat.digitChar n).toUpper = Nat.digitChar n := by decide

theorem IsDigit.eq_of_isLower {c : Char} {value : Nat} (h : IsDigit c value) (hlower : IsLower c) :
    c = Nat.digitChar value := by
  obtain ⟨hlt, rfl | rfl⟩ := h
  · rfl
  · exact toUpper_eq_of_isLower value hlt hlower

/-- Of the digits that denote bytes, those in lower case are the ones that are written. -/
theorem eq_flatMap_digits_iff {ds : List Char} {bytes : List UInt8} :
    ds = bytes.flatMap digits ↔ Denotes ds bytes ∧ ∀ c ∈ ds, IsLower c := by
  constructor
  · rintro rfl
    refine ⟨denotes_flatMap_digits bytes, fun c hc => ?_⟩
    obtain ⟨b, -, hc⟩ := List.mem_flatMap.mp hc
    have hb := b.toNat_lt
    rw [digits, List.mem_cons, List.mem_singleton] at hc
    rcases hc with rfl | rfl <;> exact isLower_digitChar _ (by omega)
  · rintro ⟨h, hlower⟩
    induction h with
    | nil => rfl
    | cons ha hb h ih =>
        simp only [List.forall_mem_cons] at hlower
        rw [List.flatMap_cons, ← ih hlower.2.2, digits, ← ha.eq_of_isLower hlower.1, ← hb.eq_of_isLower hlower.2.1]
        rfl

/-- An even number of digits denotes bytes. -/
theorem exists_denotes : ∀ {ds : List Char} {size : Nat}, ds.length = 2 * size → (∀ c ∈ ds, ∃ value, IsDigit c value) →
    ∃ bytes : Vector UInt8 size, Denotes ds bytes.toList
  | [], 0, _, _ => ⟨#v[], .nil⟩
  | [], size + 1, hlength, _ => by cases hlength
  | [_], size, hlength, _ => by
      rw [List.length_singleton] at hlength
      omega
  | _ :: _ :: _, 0, hlength, _ => by cases hlength
  | a :: b :: ds, size + 1, hlength, h => by
      simp only [List.forall_mem_cons] at h
      obtain ⟨⟨x, hx⟩, ⟨y, hy⟩, hds⟩ := h
      have hshorter : ds.length = 2 * size := by
        simp only [List.length_cons] at hlength
        omega
      obtain ⟨bytes, hbytes⟩ := exists_denotes hshorter hds
      have hx' := hx.1
      have hy' := hy.1
      have hbyte : (UInt8.ofNat (x * 16 + y)).toNat = x * 16 + y := UInt8.toNat_ofNat_of_lt' (show _ < 256 by omega)
      have hhigh : (UInt8.ofNat (x * 16 + y)).toNat / 16 = x := by omega
      have hlow : (UInt8.ofNat (x * 16 + y)).toNat % 16 = y := by omega
      refine ⟨⟨(UInt8.ofNat (x * 16 + y) :: bytes.toList).toArray, by simp⟩, .cons ?_ ?_ hbytes⟩
      · rw [hhigh]
        exact hx
      · rw [hlow]
        exact hy

end Hex

/-! ### Numerals -/

namespace Numeral

/-- Digits without a sign and without leading zeros. -/
def IsCanonical (ds : List Char) : Prop :=
  ds ≠ [] ∧ (∀ c ∈ ds, '0' ≤ c ∧ c ≤ '9') ∧ (ds.head? = some '0' → ds = ['0'])

theorem digitChar_sub : ∀ n < 128, '0' ≤ Char.ofNat n ∧ Char.ofNat n ≤ '9' →
    Nat.digitChar ((Char.ofNat n).toNat - 48) = Char.ofNat n ∧ (Char.ofNat n).toNat - 48 < 10 := by decide +kernel

theorem digitChar_of_digit {c : Char} (h : '0' ≤ c ∧ c ≤ '9') :
    Nat.digitChar (c.toNat - 48) = c ∧ c.toNat - 48 < 10 := by
  have hlt : c.toNat < 128 := Nat.lt_of_le_of_lt (show c.toNat ≤ '9'.toNat from h.2) (by decide)
  have hc := digitChar_sub c.toNat hlt
  rw [Char.ofNat_toNat] at hc
  exact hc h

theorem digits_append {m d : Nat} (hm : m ≠ 0) (hd : d < 10) : digits (m * 10 + d) = digits m ++ [Nat.digitChar d] := by
  have hdiv : (m * 10 + d) / 10 = m := by omega
  have hmod : (m * 10 + d) % 10 = d := by omega
  rw [digits, Nat.toDigits_eq_if (by decide), if_neg (by omega), hdiv, hmod]
  rfl

/-- The digits of a number are canonical. -/
theorem isCanonical_digits (n : Nat) : IsCanonical (digits n) := by
  refine ⟨digits_ne_nil n, fun c hc => ?_, fun hzero => ?_⟩
  · have hdigit := isDigit_of_mem_digits hc
    simpa [Char.isDigit, Char.le_def] using hdigit
  · by_cases hn : n = 0
    · subst hn
      rfl
    · obtain ⟨d, more, hds, hne, hlt⟩ := Json.digitsOf_eq_cons hn
      rw [Json.digits_eq_map hn, hds, List.map_cons, List.head?_cons] at hzero
      have hnot : ∀ d < 10, Nat.digitChar d = '0' → d = 0 := by decide
      exact absurd (hnot d hlt (Option.some.inj hzero)) hne

/-- Canonical digits are the digits of their number. -/
theorem IsCanonical.eq_digits {ds : List Char} (h : IsCanonical ds) :
    ds = digits (Json.goOn 0 (ds.map fun c => c.toNat - 48)) := by
  induction ds using List.reverseRecOn with
  | nil => exact absurd rfl h.1
  | append_singleton front c ih =>
      obtain ⟨-, hdigits, hzero⟩ := h
      obtain ⟨hfront, hc⟩ := List.forall_mem_append.mp hdigits
      obtain ⟨hchar, hlt⟩ := digitChar_of_digit (hc c (List.mem_singleton_self c))
      have hvalue : Json.goOn 0 ((front ++ [c]).map fun c => c.toNat - 48) =
          Json.goOn 0 (front.map fun c => c.toNat - 48) * 10 + (c.toNat - 48) := by
        rw [List.map_append, Json.goOn, List.foldl_append]
        rfl
      rw [hvalue]
      cases front with
      | nil =>
          rw [List.nil_append, List.map_nil, Json.goOn, List.foldl_nil, Nat.zero_mul, Nat.zero_add, digits,
            Nat.toDigits_of_lt_base hlt, hchar]
      | cons a rest =>
          have hfirst : a ≠ '0' := by
            rintro rfl
            have := hzero rfl
            simp at this
          have hcanonical : IsCanonical (a :: rest) :=
            ⟨List.cons_ne_nil a rest, hfront, fun ha => absurd (Option.some.inj ha) hfirst⟩
          have hne : Json.goOn 0 ((a :: rest).map fun c => c.toNat - 48) ≠ 0 := by
            intro hnull
            have heq := ih hcanonical
            rw [hnull] at heq
            exact hfirst (List.cons.inj heq).1
          rw [digits_append hne hlt, ← ih hcanonical, hchar]

/-- Of the numerals for a number, the canonical one is the one that is written. -/
theorem eq_digits_iff {text : List Char} {n : UInt64} :
    text = digits n.toNat ↔ Denotes text n ∧ IsCanonical text := by
  constructor
  · rintro rfl
    exact ⟨read_eq_ok_iff.mp (read_digits n), isCanonical_digits n.toNat⟩
  · rintro ⟨⟨ds, rfl | rfl, -, -, hn⟩, hcanonical⟩
    · rw [← hn]
      exact hcanonical.eq_digits
    · exact absurd (hcanonical.2.1 '+' List.mem_cons_self) (by decide)

end Numeral

end ChainHead
