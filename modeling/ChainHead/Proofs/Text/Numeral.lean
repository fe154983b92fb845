import ChainHead.Text.Numeral
import Mathlib.Tactic.SplitIfs

/-! Decimal numerals that are written are read back. The digits of a number are read from left to right, and no
beginning of them passes the bound that the number itself does not pass. -/

namespace ChainHead.Numeral

theorem digit?_digitChar : ∀ d < 10, digit? (Nat.digitChar d) = some d := by decide

theorem readFrom_cons {value d : Nat} {c : Char} (hdigit : digit? c = some d)
    (h : value * 10 + d < 0x10000000000000000) (rest : List Char) :
    readFrom value (c :: rest) = readFrom (value * 10 + d) rest := by
  rw [readFrom, hdigit]
  exact if_pos h

/-- Behind the digits of a number, reading goes on with the number. -/
theorem readFrom_digits_append (n : Nat) (h : n < 0x10000000000000000) (rest : List Char) :
    readFrom 0 (digits n ++ rest) = readFrom n rest := by
  induction n using Nat.strongRecOn generalizing rest with
  | ind n ih =>
      rw [digits, Nat.toDigits_eq_if (by decide)]
      split_ifs with hsmall
      · rw [List.singleton_append, readFrom_cons (digit?_digitChar n hsmall) (by omega), Nat.zero_mul, Nat.zero_add]
      · have hfront := ih (n / 10) (by omega) (by omega) (Nat.digitChar (n % 10) :: rest)
        have hdigit := digit?_digitChar (n % 10) (by omega)
        rw [List.append_assoc, List.singleton_append]
        calc readFrom 0 (digits (n / 10) ++ Nat.digitChar (n % 10) :: rest)
            = readFrom (n / 10) (Nat.digitChar (n % 10) :: rest) := hfront
          _ = readFrom (n / 10 * 10 + n % 10) rest := readFrom_cons hdigit (by omega) rest
          _ = readFrom n rest := by rw [Nat.div_add_mod']

theorem digits_ne_nil (n : Nat) : digits n ≠ [] := by
  rw [digits, Nat.toDigits_eq_if (by decide)]
  split_ifs <;> simp

theorem isDigit_of_mem_digits {n : Nat} {c : Char} (h : c ∈ digits n) : c.isDigit = true :=
  Nat.isDigit_of_mem_toDigits (by decide) (by decide) h

theorem read_digits (n : UInt64) : read (digits n.toNat) = .ok n := by
  have hread := readFrom_digits_append n.toNat n.toNat_lt []
  rw [List.append_nil] at hread
  obtain ⟨c, rest, hdigits⟩ := List.exists_cons_of_ne_nil (digits_ne_nil n.toNat)
  have hplus : c ≠ '+' := by
    intro hc
    have hdigit : c.isDigit = true := isDigit_of_mem_digits (n := n.toNat) (by simp [hdigits])
    rw [hc] at hdigit
    cases hdigit
  rw [hdigits] at hread ⊢
  rw [read, hread]
  · simp [readFrom, Except.map]
  · intro hnil
    cases hnil
  · intro h
    cases h
    exact hplus rfl
  · intro more h
    cases h
    exact hplus rfl

end ChainHead.Numeral
