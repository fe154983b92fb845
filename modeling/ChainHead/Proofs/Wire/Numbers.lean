import ChainHead.Proofs.Wire.Torn

/-! Numbers below 2 ^ 64 and what they may be written as: a string with a numeral in it, or a plain JSON number with
neither a sign nor a fraction nor an exponent. The codec of numbers takes these and refuses every other value. -/

namespace ChainHead

/-! ### Numerals -/

namespace Numeral

/-- A text is a numeral for a number: digits, one or more of them, with a plus sign in front or not. -/
def Denotes (text : List Char) (n : UInt64) : Prop :=
  ∃ ds, (text = ds ∨ text = '+' :: ds) ∧ ds ≠ [] ∧ (∀ c ∈ ds, '0' ≤ c ∧ c ≤ '9') ∧
    Json.goOn 0 (ds.map fun c => c.toNat - 48) = n.toNat

/-- Digits are read to their number as long as it fits; one that does not fit can not become smaller again. -/
theorem readFrom_eq_ok_iff {value n : Nat} (hvalue : value < 0x10000000000000000) {cs : List Char} :
    readFrom value cs = .ok n ↔ (∀ c ∈ cs, '0' ≤ c ∧ c ≤ '9') ∧
      Json.goOn value (cs.map fun c => c.toNat - 48) = n ∧ n < 0x10000000000000000 := by
  induction cs generalizing value with
  | nil =>
      constructor
      · intro h
        cases h
        exact ⟨(fun _ hc => nomatch hc), rfl, hvalue⟩
      · rintro ⟨-, rfl, -⟩
        rfl
  | cons c rest ih =>
      rw [readFrom, digit?, List.forall_mem_cons, List.map_cons]
      change _ ↔ _ ∧ Json.goOn (value * 10 + (c.toNat - 48)) (rest.map fun c => c.toNat - 48) = n ∧ _
      by_cases hc : '0' ≤ c ∧ c ≤ '9'
      · simp only [if_pos hc]
        by_cases hbound : value * 10 + (c.toNat - 48) < 0x10000000000000000
        · rw [if_pos hbound, ih hbound]
          exact ⟨fun ⟨hrest, hn⟩ => ⟨⟨hc, hrest⟩, hn⟩, fun ⟨⟨_, hrest⟩, hn⟩ => ⟨hrest, hn⟩⟩
        · rw [if_neg hbound]
          refine ⟨(fun h => nomatch h), fun ⟨_, hn, hfits⟩ => ?_⟩
          have hle := Json.le_goOn (value * 10 + (c.toNat - 48)) (rest.map fun c => c.toNat - 48)
          omega
      · simp only [if_neg hc]
        exact ⟨(fun h => nomatch h), fun h => absurd h.1.1 hc⟩

theorem map_readFrom_eq_ok_iff {cs : List Char} {n : UInt64} :
    (readFrom 0 cs).map UInt64.ofNat = .ok n ↔ (∀ c ∈ cs, '0' ≤ c ∧ c ≤ '9') ∧
      Json.goOn 0 (cs.map fun c => c.toNat - 48) = n.toNat := by
  have hread (k : Nat) := @readFrom_eq_ok_iff 0 k (by decide) cs
  constructor
  · intro h
    cases hcs : readFrom 0 cs with
    | error fault =>
        rw [hcs] at h
        cases h
    | ok k =>
        rw [hcs] at h
        cases h
        obtain ⟨hdigits, hvalue, hfits⟩ := (hread k).mp hcs
        exact ⟨hdigits, hvalue.trans (UInt64.toNat_ofNat_of_lt' hfits).symm⟩
  · rintro ⟨hdigits, hvalue⟩
    rw [(hread n.toNat).mpr ⟨hdigits, hvalue, n.toNat_lt⟩, Except.map, UInt64.ofNat_toNat]

theorem denotes_plus_iff {ds : List Char} {n : UInt64} :
    Denotes ('+' :: ds) n ↔ ds ≠ [] ∧ (∀ c ∈ ds, '0' ≤ c ∧ c ≤ '9') ∧
      Json.goOn 0 (ds.map fun c => c.toNat - 48) = n.toNat := by
  constructor
  · rintro ⟨ds', rfl | heq, hne, hdigits, hn⟩
    · exact absurd (hdigits '+' List.mem_cons_self) (by decide)
    · cases heq
      exact ⟨hne, hdigits, hn⟩
  · exact fun h => ⟨ds, .inr rfl, h⟩

theorem denotes_iff_of_ne {c : Char} {rest : List Char} {n : UInt64} (hc : c ≠ '+') :
    Denotes (c :: rest) n ↔ (∀ d ∈ c :: rest, '0' ≤ d ∧ d ≤ '9') ∧
      Json.goOn 0 ((c :: rest).map fun c => c.toNat - 48) = n.toNat := by
  constructor
  · rintro ⟨ds, rfl | heq, -, h⟩
    · exact h
    · exact absurd (List.cons.inj heq).1 hc
  · exact fun h => ⟨_, .inl rfl, List.cons_ne_nil c rest, h⟩

theorem read_eq_ok_iff {text : List Char} {n : UInt64} : read text = .ok n ↔ Denotes text n := by
  match text with
  | [] =>
      refine ⟨(fun h => nomatch h), ?_⟩
      rintro ⟨ds, rfl | heq, hne, -⟩
      · exact absurd rfl hne
      · cases heq
  | ['+'] => exact ⟨(fun h => nomatch h), fun h => absurd rfl (denotes_plus_iff.mp h).1⟩
  | '+' :: c :: rest =>
      rw [denotes_plus_iff]
      exact map_readFrom_eq_ok_iff.trans ⟨fun h => ⟨List.cons_ne_nil c rest, h⟩, fun h => h.2⟩
  | c :: rest =>
      by_cases hc : c = '+'
      · subst hc
        cases rest with
        | nil => exact ⟨(fun h => nomatch h), fun h => absurd rfl (denotes_plus_iff.mp h).1⟩
        | cons d rest =>
            rw [denotes_plus_iff]
            exact map_readFrom_eq_ok_iff.trans ⟨fun h => ⟨List.cons_ne_nil d rest, h⟩, fun h => h.2⟩
      · have hread : read (c :: rest) = (readFrom 0 (c :: rest)).map UInt64.ofNat := by
          rw [read]
          · exact fun h => List.cons_ne_nil c rest h
          · rintro h
            exact hc (List.cons.inj h).1
          · rintro more h
            exact hc (List.cons.inj h).1
        rw [hread, denotes_iff_of_ne hc]
        exact map_readFrom_eq_ok_iff

end Numeral

/-! ### Numbers in JSON -/

namespace Json

theorem isInteger_of_digits {text : List UInt8} (h : IsMagnitude text) (hdigits : Digits text) : IsInteger text := by
  obtain ⟨hwhole, hfraction, hexponent⟩ := h
  cases hfraction with
  | digits hds hne =>
      have hpoint := hdigits 0x2e (by simp)
      cases hpoint
  | none =>
      cases hexponent with
      | @digits mark b sign ds hmark hsign hb hds =>
          have hdigit := hdigits mark (by simp)
          rcases hmark with rfl | rfl <;> cases hdigit
      | none =>
          rw [List.append_nil, List.append_nil]
          exact hwhole

end Json

namespace Wire

open Json Reader

/-- A value that spells a number: a string whose text is a numeral for it, or its digits as a JSON number. -/
inductive SpellsNumber : List UInt8 → UInt64 → Prop
  | quoted {raw : List UInt8} {text : List Char} {n : UInt64} (h : Spells raw text) (hn : Numeral.Denotes text n) :
      SpellsNumber (stringText raw) n
  | plain {digits : List UInt8} {n : UInt64} (h : IsInteger digits) (hn : goOn 0 (digits.map digitValue) = n.toNat) :
      SpellsNumber digits n

theorem SpellsNumber.isValue {v : List UInt8} {n : UInt64} (h : SpellsNumber v n) : IsValue v := by
  cases h with
  | quoted h hn => exact .text h.isText
  | plain h hn => exact .number h.isMagnitude

/-- Minus zero is a value, but no number without a sign. -/
theorem isValue_minusZero : IsValue [0x2d, 0x30] := .negative (.intro .zero .none .none)

theorem not_spellsNumber_minusZero (n : UInt64) : ¬SpellsNumber [0x2d, 0x30] n := by
  intro h
  cases h with
  | plain h hn =>
      cases h with
      | more hb hds => cases hb

section

variable {v : List UInt8} {n : UInt64} {levels : Nat}

theorem takesItem_quoted (h : SpellsNumber v n) (levels : Nat) : TakesItem (quoted.read levels) v n := by
  cases h with
  | @quoted raw text n h hn =>
      rw [← String.toList_ofList (l := text)] at h hn
      refine .of_goesOnItem (goesOn_readForm_text raw).item (.located ?_)
      refine (takes_text h).item.bind_nil fun _ p _ => ⟨p, ?_⟩
      simp only [Numeral.read_eq_ok_iff.mpr hn]
      rfl
  | plain h hn =>
      refine .of_goesOnItem (goesOn_readForm_number h.isMagnitude).item (.located ?_)
      have hnumber := (takesItem_number_natural_iff h.isMagnitude).mpr ⟨digits_of_isInteger h, hn⟩
      exact hnumber.bind_nil fun _ p _ => ⟨p, rfl⟩

/-- A value spells a number, or the codec of numbers refuses it. -/
theorem spells_or_refuses (hv : IsValue v) (levels : Nat) :
    (∃ n, SpellsNumber v n) ∨ RefusesItem (quoted.read levels) v := by
  cases hv with
  | word h =>
      refine .inr (.located ?_)
      simp only [words, List.mem_cons, List.not_mem_nil, or_false] at h
      rcases h with rfl | rfl | rfl <;>
        exact .of_goesOnItem (goesOn_ahead rfl).item (refuses_of_yields (.unexpected _) _).item
  | number h =>
      have hgo : GoesOn (quoted.read levels) v _ v := goesOn_readForm_number h
      rcases (halts_number true h).settlesItem with ⟨k, hk⟩ | hrefuses
      · cases k with
        | natural n =>
            obtain ⟨hdigits, hn⟩ := (takesItem_number_natural_iff h).mp hk
            exact .inl ⟨n, .plain (isInteger_of_digits h hdigits) hn⟩
        | negative k =>
            refine .inr (.of_goesOnItem hgo.item (.located (hk.bind_nil_refuses ?_)))
            exact (refuses_of_yields (.refuseValue _) []).item
        | real bits =>
            refine .inr (.of_goesOnItem hgo.item (.located (hk.bind_nil_refuses ?_)))
            exact (refuses_of_yields (.refuseValue _) []).item
      · exact .inr (.of_goesOnItem hgo.item (hrefuses.bind _).located)
  | @negative digits h =>
      have hgo : GoesOn (quoted.read levels) (0x2d :: digits) _ digits := goesOn_readForm_negative digits
      refine .inr (.of_goesOnItem hgo.item (.located ?_))
      rcases (halts_number false h).settlesItem with ⟨k, hk⟩ | hrefuses
      · refine hk.bind_nil_refuses ?_
        cases k with
        | natural n => exact absurd rfl (noNatural_of_takesItem hk n)
        | negative k => exact (refuses_of_yields (.refuseValue _) []).item
        | real bits => exact (refuses_of_yields (.refuseValue _) []).item
      · exact hrefuses.bind _
  | @text raw h =>
      have hgo : GoesOn (quoted.read levels) (stringText raw) _ (raw ++ [0x22]) := goesOn_readForm_text raw
      by_cases hspelled : ∃ text, Spells raw text
      · obtain ⟨text, hspelled⟩ := hspelled
        cases hread : Numeral.read text with
        | ok n => exact .inl ⟨n, .quoted hspelled (Numeral.read_eq_ok_iff.mp hread)⟩
        | error fault =>
            rw [← String.toList_ofList (l := text)] at hspelled hread
            refine .inr (.of_goesOnItem hgo.item (.located ((takes_text hspelled).item.bind_nil_refuses ?_)))
            simp only [hread]
            exact (refuses_of_yields (.refuseValue _) []).item
      · have hrefuses := refuses_text h (not_exists.mp hspelled)
        exact .inr (.of_goesOnItem hgo.item (hrefuses.item.bind _).located)
  | list hgap hitems =>
      refine .inr (.located (.of_goesOnItem (goesOn_ahead rfl).item ?_))
      exact (refuses_of_yields (.listOf fun _ _ => .refuseValue _) _).item
  | record hgap hmembers =>
      refine .inr (.located (.of_goesOnItem (goesOn_ahead rfl).item ?_))
      exact (refuses_of_yields (.recordOf fun _ _ => .refuseValue _) _).item

/-- A value that is taken spells the number that it is taken as, and no other. -/
theorem spellsNumber_iff (hv : IsValue v) (h : TakesItem (quoted.read levels) v n) {other : UInt64} :
    SpellsNumber v other ↔ other = n := by
  constructor
  · exact fun hother => takesItem_unique (takesItem_quoted hother levels) h
  · rintro rfl
    rcases spells_or_refuses hv levels with ⟨m, hm⟩ | hrefuses
    · rwa [takesItem_unique h (takesItem_quoted hm levels)]
    · exact absurd h (not_takesItem_of_refusesItem hrefuses _)

end

end Wire

end ChainHead
