import ChainHead.Proofs.Json.Reads
import Mathlib.Data.Nat.Digits.Lemmas
import Mathlib.Tactic.SplitIfs

/-! Whole numbers that are written are read back. The reader takes the digits of a number to the end of their run and
then puts the number together from them, so the run is treated as a list of digits and not as a text. -/

namespace ChainHead.Json

/-! ### Digits -/

/-- The ASCII byte of a decimal digit. -/
def digitByte (d : Nat) : UInt8 := 0x30 + d.toUInt8

theorem encodeChar_digitChar : ∀ d < 10, String.utf8EncodeChar (Nat.digitChar d) = [digitByte d] := by decide

theorem isDigit_digitByte : ∀ d < 10, (0x30 ≤ digitByte d && digitByte d ≤ 0x39) = true := by decide

theorem isFirst_digitByte : ∀ d < 10, d ≠ 0 → (0x31 ≤ digitByte d && digitByte d ≤ 0x39) = true := by decide

theorem toNat_digitByte : ∀ d < 10, (digitByte d - 0x30).toNat = d := by decide

theorem encode_map_digitChar {ds : List Nat} (h : ∀ d ∈ ds, d < 10) :
    Utf8.encode (ds.map Nat.digitChar) = ds.map digitByte := by
  induction ds with
  | nil => rfl
  | cons d rest ih =>
      obtain ⟨hd, hrest⟩ := List.forall_mem_cons.mp h
      rw [List.map_cons, Utf8.encode_cons, encodeChar_digitChar d hd, ih hrest]
      rfl

/-- The digits of a number other than zero, first one first. -/
def digitsOf (n : Nat) : List Nat := (Nat.digits 10 n).reverse

theorem digitsOf_lt {n d : Nat} (h : d ∈ digitsOf n) : d < 10 :=
  Nat.digits_lt_base (by decide) (List.mem_reverse.mp h)

theorem digits_eq_map {n : Nat} (h : n ≠ 0) : Numeral.digits n = (digitsOf n).map Nat.digitChar := by
  induction n using Nat.strongRecOn with
  | ind n ih =>
      rw [Numeral.digits, Nat.toDigits_eq_if (by decide), digitsOf, Nat.digits_def' (by decide) (Nat.pos_of_ne_zero h),
        List.reverse_cons, List.map_append]
      split_ifs with hsmall
      · rw [Nat.div_eq_of_lt hsmall, Nat.mod_eq_of_lt hsmall, Nat.digits_zero]
        rfl
      · have hfront := ih (n / 10) (by omega) (by omega)
        rw [Numeral.digits] at hfront
        rw [hfront]
        rfl

/-- The number that digits stand for behind a number in front of them. -/
def goOn (n : Nat) (ds : List Nat) : Nat := ds.foldl (fun n d => n * 10 + d) n

theorem goOn_digitsOf (n : Nat) : goOn 0 (digitsOf n) = n := by
  rw [goOn, digitsOf, List.foldl_reverse]
  calc (Nat.digits 10 n).foldr (fun d n => n * 10 + d) 0
      = (Nat.digits 10 n).foldr (fun d n => d + 10 * n) 0 := by simp only [Nat.mul_comm, Nat.add_comm]
    _ = Nat.ofDigits 10 (Nat.digits 10 n) := (Nat.ofDigits_eq_foldr 10 _).symm
    _ = n := Nat.ofDigits_digits 10 n

theorem le_goOn (n : Nat) (ds : List Nat) : n ≤ goOn n ds := by
  induction ds generalizing n with
  | nil => exact Nat.le_refl n
  | cons d rest ih =>
      calc n ≤ n * 10 + d := by omega
        _ ≤ goOn (n * 10 + d) rest := ih (n * 10 + d)

/-- The first digit of a number other than zero is not zero. -/
theorem digitsOf_eq_cons {n : Nat} (h : n ≠ 0) : ∃ d more, digitsOf n = d :: more ∧ d ≠ 0 ∧ d < 10 := by
  cases hds : digitsOf n with
  | nil =>
      have hgoOn := goOn_digitsOf n
      rw [hds] at hgoOn
      exact absurd hgoOn.symm h
  | cons d more =>
      refine ⟨d, more, rfl, ?_, digitsOf_lt (hds ▸ List.mem_cons_self)⟩
      have hdigits : Nat.digits 10 n = more.reverse ++ [d] := by
        rw [← List.reverse_reverse (Nat.digits 10 n), ← digitsOf, hds, List.reverse_cons]
      have hlast := Nat.getLast_digit_ne_zero 10 h
      simpa only [hdigits, List.getLast_append_singleton] using hlast

/-- All digits of a number below the bound are taken. -/
theorem appendDigits_eq_goOn {n : Nat} {ds : List Nat} (h : goOn n ds < 0x10000000000000000) :
    appendDigits n ds = (goOn n ds, ds.length) := by
  induction ds generalizing n with
  | nil => rfl
  | cons d rest ih =>
      have hbound : n * 10 + d < 0x10000000000000000 := Nat.lt_of_le_of_lt (le_goOn _ rest) h
      have hrest : appendDigits (n * 10 + d) rest = (goOn (n * 10 + d) rest, rest.length) := ih h
      rw [appendDigits, if_pos hbound, hrest]
      rfl

/-! ### Numbers -/

/-- Whether no number goes on in some bytes. -/
def endsNumber : List UInt8 → Bool
  | [] => true
  | b :: _ => !(0x30 ≤ b && b ≤ 0x39) && b != 0x2e && b != 0x65 && b != 0x45

theorem digitsFrom_append {ds : List Nat} (hds : ∀ d ∈ ds, d < 10) {rest : List UInt8} (hrest : endsNumber rest = true)
    (position : Position) :
    digitsFrom position (ds.map digitByte ++ rest) = (ds, ⟨rest, position.behind (ds.map digitByte)⟩) := by
  induction ds generalizing position with
  | nil =>
      cases rest with
      | nil => rfl
      | cons b rest =>
          simp only [endsNumber, Bool.and_eq_true, Bool.not_eq_true'] at hrest
          rw [List.map_nil, List.nil_append, digitsFrom, hrest.1.1.1]
          rfl
  | cons d ds ih =>
      obtain ⟨hd, hds⟩ := List.forall_mem_cons.mp hds
      rw [List.map_cons, List.cons_append, digitsFrom, isDigit_digitByte d hd, ih hds, toNat_digitByte d hd]
      rfl

namespace Reader

/-- What a whole number without further digits is, by its sign. -/
def wholeNumber (positive : Bool) (significand : Nat) : Number :=
  if positive then .natural (UInt64.ofNat significand)
  else if significand = 0 || 0x8000000000000000 < significand then signed false (UInt64.ofNat significand).toFloat
  else .negative (significand - 1)

theorem fractionPart_of_endsNumber (positive : Bool) (significand : Nat) {rest : List UInt8}
    (h : endsNumber rest = true) (position : Position) :
    fractionPart positive significand 0 ⟨rest, position⟩ =
      .done (wholeNumber positive significand) ⟨rest, position⟩ := by
  have hwhole : fractionPart positive significand 0 ⟨rest, position⟩ =
      (if positive then pure (.natural (UInt64.ofNat significand))
        else if significand = 0 || 0x8000000000000000 < significand then
          pure (signed false (UInt64.ofNat significand).toFloat)
        else pure (.negative (significand - 1)) : Reader Number) ⟨rest, position⟩ := by
    cases rest with
    | nil => rfl
    | cons b rest =>
        simp only [endsNumber, Bool.and_eq_true, bne_iff_ne, ne_eq] at h
        have hpeek : peek ⟨b :: rest, position⟩ = .done (some b) ⟨b :: rest, position⟩ := rfl
        have hpoint : some b = some 0x2e → False := fun heq => h.1.1.2 (Option.some.inj heq)
        have hsmall : some b = some 0x65 → False := fun heq => h.1.2 (Option.some.inj heq)
        have hlarge : some b = some 0x45 → False := fun heq => h.2 (Option.some.inj heq)
        refine (bind_done hpeek).trans ?_
        simp only
        rfl
  rw [hwhole, wholeNumber]
  split_ifs <;> rfl

theorem number_zero (positive : Bool) {rest : List UInt8} (h : endsNumber rest = true) (position : Position) :
    number positive ⟨0x30 :: rest, position⟩ = .done (wholeNumber positive 0) ⟨rest, position.after 0x30⟩ := by
  cases rest with
  | nil => exact fractionPart_of_endsNumber positive 0 h (position.after 0x30)
  | cons b rest =>
      have hdigit : (0x30 ≤ b && b ≤ 0x39) = false := by
        simp only [endsNumber, Bool.and_eq_true, Bool.not_eq_true'] at h
        exact h.1.1.1
      have hrest := fractionPart_of_endsNumber positive 0 h (position.after 0x30)
      change (if (0x30 ≤ b && b ≤ 0x39) = true then refuseNext .badNumber else fractionPart positive 0 0 :
        Reader Number) ⟨b :: rest, position.after 0x30⟩ = _
      rw [hdigit]
      exact hrest

theorem number_of_first {b : UInt8} (hfirst : (0x31 ≤ b && b ≤ 0x39) = true) {rest : List UInt8} {position : Position}
    {more : List Nat} {c : Cursor} (hdigits : digits ⟨rest, position.after b⟩ = .done more c) (positive : Bool) :
    number positive ⟨b :: rest, position⟩ =
      fractionPart positive (appendDigits (b - 0x30).toNat more).1
        (more.length - (appendDigits (b - 0x30).toNat more).2) c := by
  have hnext : next ⟨b :: rest, position⟩ = .done (some b) ⟨rest, position.after b⟩ := rfl
  have hzero : b ≠ 0x30 := by
    rintro rfl
    exact absurd hfirst (by decide)
  refine (bind_done hnext).trans ?_
  simp only
  rw [if_pos hfirst]
  exact bind_done hdigits

/-- The digits of a number below the bound are read as the number. -/
theorem number_digits (positive : Bool) {n : Nat} (hn : n < 0x10000000000000000) {rest : List UInt8}
    (h : endsNumber rest = true) (position : Position) :
    number positive ⟨Utf8.encode (Numeral.digits n) ++ rest, position⟩ =
      .done (wholeNumber positive n) ⟨rest, position.behind (Utf8.encode (Numeral.digits n))⟩ := by
  by_cases hzero : n = 0
  · subst hzero
    exact number_zero positive h position
  · obtain ⟨d, more, hds, hd, hlt⟩ := digitsOf_eq_cons hzero
    have hmore : ∀ d ∈ more, d < 10 := fun d hmem => digitsOf_lt (hds ▸ List.mem_cons_of_mem _ hmem)
    have hbytes : Utf8.encode (Numeral.digits n) = digitByte d :: more.map digitByte := by
      rw [digits_eq_map hzero, hds, List.map_cons, Utf8.encode_cons, encodeChar_digitChar d hlt,
        encode_map_digitChar hmore]
      rfl
    have hvalue : goOn d more = n := by
      have hgoOn := goOn_digitsOf n
      rw [hds] at hgoOn
      simpa only [goOn, List.foldl_cons, Nat.zero_mul, Nat.zero_add] using hgoOn
    have happend : appendDigits d more = (n, more.length) := by
      rw [appendDigits_eq_goOn (hvalue ▸ hn), hvalue]
    have hdigits : digits ⟨more.map digitByte ++ rest, position.after (digitByte d)⟩ =
        .done more ⟨rest, (position.after (digitByte d)).behind (more.map digitByte)⟩ := by
      rw [digits, digitsFrom_append hmore h]
    rw [hbytes, List.cons_append, number_of_first (isFirst_digitByte d hlt hd) hdigits, toNat_digitByte d hlt, happend,
      Nat.sub_self]
    exact fractionPart_of_endsNumber positive n h _

/-- A number that fits is read as it was. -/
theorem wholeNumber_true (n : UInt64) : wholeNumber true n.toNat = .natural n := by
  rw [wholeNumber, if_pos rfl, UInt64.ofNat_toNat]

theorem wholeNumber_false {k : Nat} (h : k < 0x8000000000000000) : wholeNumber false (k + 1) = .negative k := by
  have hsize : (k + 1 = 0 || 0x8000000000000000 < k + 1) = false := by
    rw [Bool.or_eq_false_iff, decide_eq_false_iff_not, decide_eq_false_iff_not]
    omega
  rw [wholeNumber, if_neg (by decide), hsize]
  rfl

end Reader

end ChainHead.Json
