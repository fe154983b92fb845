import ChainHead.Json.Skip
import ChainHead.Proofs.Json.Number
import ChainHead.Proofs.Json.Strings

/-! Numbers of the grammar. A number is taken to its end, or it is refused with nothing but digits of it left: its
exponent is too large, and is read up to the digit that shows this. The number is an integer exactly if it has neither
fraction nor exponent and its digits fit 64 bits. Passing over a number asks for the grammar only. -/

namespace ChainHead.Json

def digitValue (b : UInt8) : Nat := (b - 0x30).toNat

def startsDigit : List UInt8 → Bool
  | [] => false
  | b :: _ => isDigit b

theorem endsNumber_of_endsItem {rest : List UInt8} (h : endsItem rest = true) : endsNumber rest = true := by
  cases rest with
  | nil => rfl
  | cons b rest =>
      simp only [endsItem, isBlank, Bool.or_eq_true, beq_iff_eq] at h
      rcases h with (((((rfl | rfl) | rfl) | rfl) | rfl) | rfl) | rfl <;> rfl

theorem startsDigit_of_endsNumber {rest : List UInt8} (h : endsNumber rest = true) : startsDigit rest = false := by
  cases rest with
  | nil => rfl
  | cons b rest =>
      simp only [endsNumber, Bool.and_eq_true, Bool.not_eq_true'] at h
      exact h.1.1.1

theorem digitsFrom_digits {ds : List UInt8} (hds : Digits ds) {rest : List UInt8} (hrest : startsDigit rest = false)
    (p : Position) : digitsFrom p (ds ++ rest) = (ds.map digitValue, ⟨rest, p.behind ds⟩) := by
  induction ds generalizing p with
  | nil =>
      cases rest with
      | nil => rfl
      | cons b rest =>
          have hb : (0x30 ≤ b && b ≤ 0x39) = false := hrest
          rw [List.nil_append, digitsFrom, hb]
          rfl
  | cons d ds ih =>
      obtain ⟨hd, hds⟩ := List.forall_mem_cons.mp hds
      have hd : (0x30 ≤ d && d ≤ 0x39) = true := hd
      rw [List.cons_append, digitsFrom, hd, ih hds]
      rfl

/-- With a digit that passes the bound not all digits are taken. -/
theorem taken_lt_of_le_goOn {n : Nat} (hn : n < 0x10000000000000000) {ds : List Nat}
    (h : 0x10000000000000000 ≤ goOn n ds) : (appendDigits n ds).2 < ds.length := by
  induction ds generalizing n with
  | nil => exact absurd (Nat.lt_of_lt_of_le hn h) (Nat.lt_irrefl n)
  | cons d ds ih =>
      rw [appendDigits]
      split_ifs with hbound
      · exact Nat.succ_lt_succ (ih hbound h)
      · exact Nat.succ_pos _

namespace Reader

variable {α β : Type}

/-- A reader takes a text, or refuses it and leaves nothing but digits unread. -/
def Halts (r : Reader α) (text : List UInt8) : Prop :=
  (∃ a, TakesItem r text a) ∨ ∃ tail, Digits tail ∧ Stops r text tail

section

variable {r r' : Reader α} {text text' : List UInt8}

theorem Halts.of_goesOnItem (hr : GoesOnItem r text r' text') (h : Halts r' text') : Halts r text :=
  h.imp (fun ⟨a, ha⟩ => ⟨a, .of_goesOnItem hr ha⟩) fun ⟨tail, htail, h⟩ => ⟨tail, htail, .of_goesOnItem hr h⟩

theorem Halts.settlesItem (h : Halts r text) : SettlesItem r text :=
  h.imp_right fun ⟨_, _, h⟩ => h.refusesItem

theorem halts_pure (a : α) : Halts (pure a) [] := .inl ⟨a, fun _ p _ => ⟨p, rfl⟩⟩

theorem halts_refuse (reason : Reason) {tail : List UInt8} (htail : Digits tail) :
    Halts (refuse reason : Reader α) tail :=
  .inr ⟨tail, htail, fun _ p _ => ⟨_, p, rfl⟩⟩

end

/-- Where a number ends, nothing of it is seen ahead. -/
theorem peek_bind_of_endsNumber {g : Option UInt8 → Reader α} {r : Reader α} (hnone : g none = r)
    (hsome : ∀ b, b ≠ 0x2e → b ≠ 0x65 → b ≠ 0x45 → g (some b) = r) {rest : List UInt8}
    (h : endsNumber rest = true) (p : Position) : (peek >>= g) ⟨rest, p⟩ = r ⟨rest, p⟩ := by
  cases rest with
  | nil => exact congrFun hnone _
  | cons b rest =>
      simp only [endsNumber, Bool.and_eq_true, bne_iff_ne, ne_eq] at h
      exact peek_bind_congr (hsome b h.1.1.2 h.1.2 h.2) rest p

/-! ### Parts of a number -/

theorem halts_real (positive : Bool) (significand : Nat) (exponent : Int) :
    Halts (real positive significand exponent) [] := by
  rw [real]
  split
  · exact halts_pure _
  · exact halts_refuse _ fun _ hb => absurd hb List.not_mem_nil

/-- The digits of an exponent are read to their end, or up to the one that makes it too large. -/
theorem exists_exponentFrom {ds : List UInt8} (hds : Digits ds) (value : Nat) :
    ∃ (size : Option Nat) (tail : List UInt8), Digits tail ∧ (size.isSome = true → tail = []) ∧
      ∀ rest p, startsDigit rest = false → ∃ q, exponentFrom value p (ds ++ rest) = (size, ⟨tail ++ rest, q⟩) := by
  induction ds generalizing value with
  | nil =>
      refine ⟨some value, [], hds, fun _ => rfl, fun rest p hrest => ⟨p, ?_⟩⟩
      cases rest with
      | nil => rfl
      | cons b rest =>
          have hb : (0x30 ≤ b && b ≤ 0x39) = false := hrest
          rw [List.nil_append, exponentFrom, hb]
          rfl
  | cons d ds ih =>
      obtain ⟨hd, hds⟩ := List.forall_mem_cons.mp hds
      have hd : (0x30 ≤ d && d ≤ 0x39) = true := hd
      by_cases hsmall : value * 10 + (d - 0x30).toNat < 0x80000000
      · obtain ⟨size, tail, htail, hsome, hread⟩ := ih hds (value * 10 + (d - 0x30).toNat)
        refine ⟨size, tail, htail, hsome, fun rest p hrest => ?_⟩
        obtain ⟨q, hread⟩ := hread rest (p.after d) hrest
        refine ⟨q, ?_⟩
        rw [List.cons_append, exponentFrom, if_pos hd]
        simp only
        rw [if_pos hsmall, hread]
      · refine ⟨none, ds, hds, (fun h => nomatch h), fun rest p hrest => ⟨p.after d, ?_⟩⟩
        rw [List.cons_append, exponentFrom, if_pos hd]
        simp only
        rw [if_neg hsmall]

/-- The real of an exponent that was read, or of one that is too large. -/
def ofExponent (positive : Bool) (significand : Nat) (exponent : Int) (up : Bool) : Option Nat → Reader Number
  | some n => real positive significand (if up then exponent + n else exponent - n)
  | none =>
    if significand ≠ 0 && up then refuse .numberTooLarge
    else do
      discard digits
      pure (signed positive 0.0)

/-- What follows the sign of an exponent. -/
def exponentDigits (positive : Bool) (significand : Nat) (exponent : Int) (up : Bool) : Reader Number := do
  match ← next with
  | none => refuse .endInValue
  | some b =>
    if 0x30 ≤ b && b ≤ 0x39 then
      let size : Option Nat ← fun c =>
        let (size, c') := exponentFrom (b - 0x30).toNat c.position c.rest
        .done size c'
      ofExponent positive significand exponent up size
    else refuse .badNumber

theorem takesItem_digits {ds : List UInt8} (hds : Digits ds) : TakesItem digits ds (ds.map digitValue) := by
  intro rest p hrest
  refine ⟨p.behind ds, ?_⟩
  rw [digits, digitsFrom_digits hds (startsDigit_of_endsNumber (endsNumber_of_endsItem hrest))]

theorem discard_done {r : Reader α} {a : α} {c c' : Cursor} (h : r c = .done a c') :
    (discard r : Reader Unit) c = .done () c' := by
  change (r >>= fun _ => pure ()) c = _
  rw [bind_done h]
  rfl

theorem halts_ofExponent (positive : Bool) (significand : Nat) (exponent : Int) (up : Bool) {size : Option Nat}
    {tail : List UInt8} (htail : Digits tail) (hsome : size.isSome = true → tail = []) :
    Halts (ofExponent positive significand exponent up size) tail := by
  cases size with
  | some n =>
      obtain rfl := hsome rfl
      exact halts_real _ _ _
  | none =>
      rw [ofExponent]
      split_ifs
      · exact halts_refuse _ htail
      · refine .inl ⟨signed positive 0.0, fun rest p hrest => ?_⟩
        obtain ⟨q, hdigits⟩ := takesItem_digits htail rest p hrest
        exact ⟨q, bind_done (discard_done hdigits)⟩

theorem halts_exponentDigits (positive : Bool) (significand : Nat) (exponent : Int) (up : Bool) {b : UInt8}
    {ds : List UInt8} (hb : isDigit b = true) (hds : Digits ds) :
    Halts (exponentDigits positive significand exponent up) (b :: ds) := by
  obtain ⟨size, tail, htail, hsome, hread⟩ := exists_exponentFrom hds (b - 0x30).toNat
  refine .of_goesOnItem (fun rest p hrest => ?_) (halts_ofExponent positive significand exponent up htail hsome)
  obtain ⟨q, hread⟩ := hread rest (p.after b) (startsDigit_of_endsNumber (endsNumber_of_endsItem hrest))
  have hb : (0x30 ≤ b && b ≤ 0x39) = true := hb
  have hnext : next ⟨b :: ds ++ rest, p⟩ = .done (some b) ⟨ds ++ rest, p.after b⟩ := rfl
  have hsize : ((fun c => match exponentFrom (b - 0x30).toNat c.position c.rest with
      | (size, c') => .done size c') : Reader (Option Nat)) ⟨ds ++ rest, p.after b⟩ =
        .done size ⟨tail ++ rest, q⟩ := by
    simp only [hread]
  refine ⟨q, (bind_done hnext).trans ?_⟩
  simp only
  rw [if_pos hb]
  exact bind_done hsize

theorem ne_of_isDigit {b c : UInt8} (hb : isDigit b = true) (hc : isDigit c = false) : b ≠ c := by
  rintro rfl
  rw [hb] at hc
  cases hc

/-- The sign of an exponent is read if there is one. -/
theorem exists_exponentSign {sign : List UInt8} (hsign : sign = [] ∨ sign = [0x2b] ∨ sign = [0x2d]) {b : UInt8}
    (hb : isDigit b = true) :
    ∃ up, ∀ more p, ∃ q, exponentSign ⟨sign ++ b :: more, p⟩ = .done up ⟨b :: more, q⟩ := by
  rcases hsign with rfl | rfl | rfl
  · refine ⟨true, fun more p => ⟨p, ?_⟩⟩
    refine peek_bind_congr (r := pure true) ?_ more p
    split
    · rename_i heq
      exact absurd (Option.some.inj heq) (ne_of_isDigit hb rfl)
    · rename_i heq
      exact absurd (Option.some.inj heq) (ne_of_isDigit hb rfl)
    · rfl
  · exact ⟨true, fun more p => ⟨p.after 0x2b, rfl⟩⟩
  · exact ⟨false, fun more p => ⟨p.after 0x2d, rfl⟩⟩

theorem halts_exponentPart (positive : Bool) (significand : Nat) (exponent : Int) {text : List UInt8}
    (h : IsExponent text) (hne : text ≠ []) : Halts (exponentPart positive significand exponent) text := by
  cases h with
  | none => exact absurd rfl hne
  | @digits mark b sign ds hmark hsign hb hds =>
      obtain ⟨up, hup⟩ := exists_exponentSign hsign hb
      refine .of_goesOnItem (fun rest p _ => ?_) (halts_exponentDigits positive significand exponent up hb hds)
      obtain ⟨q, hup⟩ := hup (ds ++ rest) (p.after mark)
      have heat : eat ⟨mark :: (sign ++ b :: ds) ++ rest, p⟩ = .done () ⟨sign ++ b :: (ds ++ rest), p.after mark⟩ := by
        rw [List.cons_append, List.append_assoc]
        rfl
      exact ⟨q, (bind_done heat).trans (bind_done hup)⟩

/-! ### Numbers -/

/-- The number of a whole part, when neither fraction nor exponent follows. -/
def ofWhole (positive : Bool) (significand dropped : Nat) : Reader Number :=
  if dropped ≠ 0 then real positive significand dropped
  else pure (wholeNumber positive significand)

/-- What follows the digits of a fraction. -/
def exponentPart? (positive : Bool) (significand : Nat) (exponent : Int) : Reader Number := do
  match ← peek with
  | some 0x65 | some 0x45 => exponentPart positive significand exponent
  | _ => real positive significand exponent

/-- What follows the point of a number. -/
def fractionDigits (positive : Bool) (significand dropped : Nat) : Reader Number := do
  let fraction ← digits
  if fraction.isEmpty then
    match ← peek with
    | some _ => refuseNext .badNumber
    | none => refuseNext .endInValue
  else
    let (extended, taken) := appendDigits significand fraction
    exponentPart? positive extended ((dropped : Int) - taken)

theorem halts_exponentPart? (positive : Bool) (significand : Nat) (exponent : Int) {text : List UInt8}
    (h : IsExponent text) : Halts (exponentPart? positive significand exponent) text := by
  cases h with
  | none =>
      have hgo : GoesOnItem (exponentPart? positive significand exponent) []
          (real positive significand exponent) [] := by
        intro rest p hrest
        refine ⟨p, peek_bind_of_endsNumber rfl (fun b _ hsmall hlarge => ?_) (endsNumber_of_endsItem hrest) p⟩
        simp [hsmall, hlarge]
      exact .of_goesOnItem hgo (halts_real _ _ _)
  | @digits mark b sign ds hmark hsign hb hds =>
      have hgo : GoesOnItem (exponentPart? positive significand exponent) (mark :: (sign ++ b :: ds))
          (exponentPart positive significand exponent) (mark :: (sign ++ b :: ds)) := by
        intro rest p _
        rcases hmark with rfl | rfl <;> exact ⟨p, rfl⟩
      exact .of_goesOnItem hgo (halts_exponentPart _ _ _ (.digits hmark hsign hb hds) (List.cons_ne_nil _ _))

section

variable (positive : Bool) (significand dropped : Nat)

theorem fractionPart_endsNumber {rest : List UInt8} (h : endsNumber rest = true) (p : Position) :
    fractionPart positive significand dropped ⟨rest, p⟩ = ofWhole positive significand dropped ⟨rest, p⟩ := by
  have hwhole : fractionPart positive significand dropped ⟨rest, p⟩ =
      (if dropped ≠ 0 then real positive significand dropped
        else if positive then pure (.natural (UInt64.ofNat significand))
        else if significand = 0 || 0x8000000000000000 < significand then
          pure (signed false (UInt64.ofNat significand).toFloat)
        else pure (.negative (significand - 1)) : Reader Number) ⟨rest, p⟩ := by
    refine peek_bind_of_endsNumber rfl (fun b hpoint hsmall hlarge => ?_) h p
    simp [hpoint, hsmall, hlarge]
  rw [hwhole, ofWhole, wholeNumber]
  split_ifs <;> rfl

theorem fractionPart_point (rest : List UInt8) (p : Position) :
    fractionPart positive significand dropped ⟨0x2e :: rest, p⟩ =
      fractionDigits positive significand dropped ⟨rest, p.after 0x2e⟩ := rfl

theorem fractionPart_exponent {mark : UInt8} (h : mark = 0x65 ∨ mark = 0x45) (rest : List UInt8) (p : Position) :
    fractionPart positive significand dropped ⟨mark :: rest, p⟩ =
      exponentPart positive significand dropped ⟨mark :: rest, p⟩ := by
  rcases h with rfl | rfl <;> rfl

theorem startsDigit_exponent {exponent rest : List UInt8} (h : IsExponent exponent) (hrest : endsItem rest = true) :
    startsDigit (exponent ++ rest) = false := by
  cases h with
  | none => exact startsDigit_of_endsNumber (endsNumber_of_endsItem hrest)
  | digits hmark hsign hb hds => rcases hmark with rfl | rfl <;> rfl

theorem goesOnItem_fractionDigits {ds exponent : List UInt8} (hds : Digits ds) (hne : ds ≠ [])
    (h : IsExponent exponent) :
    GoesOnItem (fractionDigits positive significand dropped) (ds ++ exponent)
      (exponentPart? positive (appendDigits significand (ds.map digitValue)).1
        ((dropped : Int) - (appendDigits significand (ds.map digitValue)).2)) exponent := by
  intro rest p hrest
  have hempty : (ds.map digitValue).isEmpty = false := by simpa using hne
  have hdigits : digits ⟨ds ++ (exponent ++ rest), p⟩ =
      .done (ds.map digitValue) ⟨exponent ++ rest, p.behind ds⟩ := by
    rw [digits, digitsFrom_digits hds (startsDigit_exponent h hrest)]
  refine ⟨p.behind ds, ?_⟩
  rw [List.append_assoc]
  refine (bind_done hdigits).trans ?_
  simp only [hempty, Bool.false_eq_true, if_false]

theorem goesOnItem_fraction {ds exponent : List UInt8} (hds : Digits ds) (hne : ds ≠ []) (h : IsExponent exponent) :
    GoesOnItem (fractionPart positive significand dropped) (0x2e :: ds ++ exponent)
      (exponentPart? positive (appendDigits significand (ds.map digitValue)).1
        ((dropped : Int) - (appendDigits significand (ds.map digitValue)).2)) exponent := by
  have hgo : GoesOnItem (fractionPart positive significand dropped) (0x2e :: ds ++ exponent)
      (fractionDigits positive significand dropped) (ds ++ exponent) :=
    fun rest p _ => ⟨p.after 0x2e, fractionPart_point positive significand dropped _ p⟩
  exact hgo.trans (goesOnItem_fractionDigits positive significand dropped hds hne h)

theorem goesOnItem_exponent {mark : UInt8} {more : List UInt8} (hmark : mark = 0x65 ∨ mark = 0x45) :
    GoesOnItem (fractionPart positive significand dropped) (mark :: more) (exponentPart positive significand dropped)
      (mark :: more) :=
  fun _ p _ => ⟨p, fractionPart_exponent positive significand dropped hmark _ p⟩

theorem goesOnItem_whole :
    GoesOnItem (fractionPart positive significand dropped) [] (ofWhole positive significand dropped) [] :=
  fun _ p hrest => ⟨p, fractionPart_endsNumber positive significand dropped (endsNumber_of_endsItem hrest) p⟩

theorem halts_fractionPart {fraction exponent : List UInt8} (hfraction : IsFraction fraction)
    (hexponent : IsExponent exponent) :
    Halts (fractionPart positive significand dropped) (fraction ++ exponent) := by
  cases hfraction with
  | digits hds hne =>
      exact .of_goesOnItem (goesOnItem_fraction positive significand dropped hds hne hexponent)
        (halts_exponentPart? _ _ _ hexponent)
  | none =>
      cases hexponent with
      | none =>
          refine .of_goesOnItem (goesOnItem_whole positive significand dropped) ?_
          rw [ofWhole]
          split_ifs
          · exact halts_real _ _ _
          · exact halts_pure _
      | digits hmark hsign hb hds =>
          exact .of_goesOnItem (goesOnItem_exponent positive significand dropped hmark)
            (halts_exponentPart _ _ _ (.digits hmark hsign hb hds) (List.cons_ne_nil _ _))

end

theorem startsDigit_fraction {fraction exponent rest : List UInt8} (hfraction : IsFraction fraction)
    (hexponent : IsExponent exponent) (hrest : endsItem rest = true) :
    startsDigit (fraction ++ exponent ++ rest) = false := by
  cases hfraction with
  | none => exact startsDigit_exponent hexponent hrest
  | digits hds hne => rfl

/-- The whole part of a number is read as its leading digits that fit, with the number of digits that do not. -/
theorem number_whole (positive : Bool) {whole : List UInt8} (h : IsInteger whole) {more : List UInt8}
    (hmore : startsDigit more = false) (p : Position) :
    ∃ q, number positive ⟨whole ++ more, p⟩ =
      fractionPart positive (appendDigits 0 (whole.map digitValue)).1
        (whole.length - (appendDigits 0 (whole.map digitValue)).2) ⟨more, q⟩ := by
  cases h with
  | zero =>
      refine ⟨p.after 0x30, ?_⟩
      cases more with
      | nil => rfl
      | cons b more =>
          have hb : (0x30 ≤ b && b ≤ 0x39) = false := hmore
          change (if (0x30 ≤ b && b ≤ 0x39) = true then refuseNext .badNumber else fractionPart positive 0 0 :
            Reader Number) ⟨b :: more, p.after 0x30⟩ = _
          rw [hb]
          rfl
  | @more b ds hb hds =>
      refine ⟨(p.after b).behind ds, ?_⟩
      have hread : digits ⟨ds ++ more, p.after b⟩ = .done (ds.map digitValue) ⟨more, (p.after b).behind ds⟩ := by
        rw [digits, digitsFrom_digits hds hmore]
      have hfirst : digitValue b < 0x10000000000000000 := Nat.lt_trans (b - 0x30).toNat_lt (by decide)
      rw [List.cons_append, number_of_first hb hread, List.map_cons, List.length_cons]
      simp only [appendDigits, Nat.zero_mul, Nat.zero_add, if_pos hfirst, List.length_map, Nat.add_sub_add_right]
      rfl

theorem goesOnItem_number (positive : Bool) {whole fraction exponent : List UInt8} (hwhole : IsInteger whole)
    (hfraction : IsFraction fraction) (hexponent : IsExponent exponent) :
    GoesOnItem (number positive) (whole ++ (fraction ++ exponent))
      (fractionPart positive (appendDigits 0 (whole.map digitValue)).1
        (whole.length - (appendDigits 0 (whole.map digitValue)).2)) (fraction ++ exponent) := by
  intro rest p hrest
  rw [List.append_assoc]
  exact number_whole positive hwhole (startsDigit_fraction hfraction hexponent hrest) p

theorem halts_number (positive : Bool) {text : List UInt8} (h : IsMagnitude text) : Halts (number positive) text := by
  obtain ⟨hwhole, hfraction, hexponent⟩ := h
  exact .of_goesOnItem (goesOnItem_number positive hwhole hfraction hexponent)
    (halts_fractionPart positive _ _ hfraction hexponent)

/-! ### Integers -/

/-- No natural number. -/
def NoNatural (n : Number) : Prop := ∀ k, n ≠ .natural k

theorem yields_exponentPart?_noNatural (positive : Bool) (significand : Nat) (exponent : Int) :
    Yields (exponentPart? positive significand exponent) NoNatural := by
  have hreal : ∀ bits, NoNatural (.real bits) := fun _ _ h => nomatch h
  refine .behind fun first => ?_
  split
  · exact yields_exponentPart hreal _ _ _
  · exact yields_exponentPart hreal _ _ _
  · exact yields_real hreal _ _ _

theorem digits_of_isInteger {whole : List UInt8} (h : IsInteger whole) : Digits whole := by
  cases h with
  | zero => decide
  | more hb hds => exact List.forall_mem_cons.mpr ⟨isDigit_of_first hb, hds⟩

theorem takesItem_whole_natural_iff {whole text : List UInt8} (h : IsInteger whole)
    (hgo : GoesOnItem (number true) text
      (ofWhole true (appendDigits 0 (whole.map digitValue)).1
        (whole.length - (appendDigits 0 (whole.map digitValue)).2)) []) {k : UInt64} :
    TakesItem (number true) text (.natural k) ↔ Digits whole ∧ goOn 0 (whole.map digitValue) = k.toNat := by
  by_cases hfits : goOn 0 (whole.map digitValue) < 0x10000000000000000
  · have htakes : TakesItem (number true) text (.natural (.ofNat (goOn 0 (whole.map digitValue)))) := by
      refine .of_goesOnItem hgo fun rest p _ => ⟨p, ?_⟩
      rw [appendDigits_eq_goOn hfits, List.length_map, Nat.sub_self]
      rfl
    constructor
    · intro hk
      cases takesItem_unique htakes hk
      exact ⟨digits_of_isInteger h, (UInt64.toNat_ofNat_of_lt' hfits).symm⟩
    · rintro ⟨-, hvalue⟩
      rw [hvalue, UInt64.ofNat_toNat] at htakes
      exact htakes
  · constructor
    · intro hk
      have htaken := taken_lt_of_le_goOn (by decide) (Nat.le_of_not_lt hfits)
      rw [List.length_map] at htaken
      have hyields : Yields (ofWhole true (appendDigits 0 (whole.map digitValue)).1
          (whole.length - (appendDigits 0 (whole.map digitValue)).2)) NoNatural := by
        rw [ofWhole, if_pos (by omega)]
        exact yields_real (fun _ _ h => nomatch h) _ _ _
      exact (hk.of_yields hgo hyields k rfl).elim
    · rintro ⟨-, hvalue⟩
      exact absurd (hvalue ▸ k.toNat_lt) hfits

/-- A number is taken as a natural one exactly if it is nothing but digits and fits 64 bits. -/
theorem takesItem_number_natural_iff {text : List UInt8} (h : IsMagnitude text) {k : UInt64} :
    TakesItem (number true) text (.natural k) ↔ Digits text ∧ goOn 0 (text.map digitValue) = k.toNat := by
  obtain ⟨hwhole, hfraction, hexponent⟩ := h
  have hgo := goesOnItem_number true hwhole hfraction hexponent
  cases hfraction with
  | @digits ds hds hne =>
      constructor
      · intro h
        have hreal := h.of_yields (hgo.trans (goesOnItem_fraction true _ _ hds hne hexponent))
          (yields_exponentPart?_noNatural _ _ _)
        exact (hreal k rfl).elim
      · intro h
        have hpoint := h.1 0x2e (by simp)
        cases hpoint
  | none =>
      cases hexponent with
      | @digits mark b sign ds hmark hsign hb hds =>
          constructor
          · intro h
            have hreal : NoNatural (.natural k) := h.of_yields (hgo.trans (goesOnItem_exponent true _ _ hmark))
              (yields_exponentPart (fun _ _ h => nomatch h) _ _ _)
            exact (hreal k rfl).elim
          · intro h
            have hdigit := h.1 mark (by simp)
            rcases hmark with rfl | rfl <;> cases hdigit
      | none =>
          simp only [List.append_nil] at hgo ⊢
          exact takesItem_whole_natural_iff hwhole (hgo.trans (goesOnItem_whole true _ _))

/-- A number with a minus sign is taken as no natural one. -/
theorem noNatural_of_takesItem {text : List UInt8} {n : Number} (h : TakesItem (number false) text n) :
    NoNatural n := by
  obtain ⟨q, h⟩ := h [] .first rfl
  have hyields : Yields (number false) NoNatural :=
    yields_number_of (fun _ _ h => nomatch h) (fun h => Bool.noConfusion h) fun _ _ _ h => nomatch h
  exact hyields _ _ _ h

/-! ### Passing over numbers -/

theorem exists_exponentMark {sign : List UInt8} (hsign : sign = [] ∨ sign = [0x2b] ∨ sign = [0x2d]) {b : UInt8}
    (hb : isDigit b = true) (more : List UInt8) (p : Position) :
    ∃ q, skipExponent.exponentMark ⟨sign ++ b :: more, p⟩ = .done () ⟨b :: more, q⟩ := by
  rcases hsign with rfl | rfl | rfl
  · refine ⟨p, peek_bind_congr (r := pure ()) ?_ more p⟩
    simp [ne_of_isDigit hb (show isDigit 0x2b = false from rfl), ne_of_isDigit hb (show isDigit 0x2d = false from rfl)]
  · exact ⟨p.after 0x2b, rfl⟩
  · exact ⟨p.after 0x2d, rfl⟩

theorem takesItem_skipExponent? {text : List UInt8} (h : IsExponent text) : TakesItem skipExponent? text () := by
  intro rest p hrest
  cases h with
  | none =>
      refine ⟨p, peek_bind_of_endsNumber rfl (fun b _ hsmall hlarge => ?_) (endsNumber_of_endsItem hrest) p⟩
      simp [hsmall, hlarge]
  | @digits mark b sign ds hmark hsign hb hds =>
      obtain ⟨q, hread⟩ := exists_exponentMark hsign hb (ds ++ rest) (p.after mark)
      obtain ⟨q', hdigits⟩ := takesItem_digits hds rest (q.after b) hrest
      have hskip : skipExponent? ⟨mark :: (sign ++ b :: ds) ++ rest, p⟩ =
          skipExponent ⟨mark :: (sign ++ b :: (ds ++ rest)), p⟩ := by
        rw [List.cons_append, List.append_assoc]
        rcases hmark with rfl | rfl <;> rfl
      have heat : eat ⟨mark :: (sign ++ b :: (ds ++ rest)), p⟩ =
          .done () ⟨sign ++ b :: (ds ++ rest), p.after mark⟩ := rfl
      have hnext : next ⟨b :: (ds ++ rest), q⟩ = .done (some b) ⟨ds ++ rest, q.after b⟩ := rfl
      refine ⟨q', hskip.trans ((bind_done heat).trans ((bind_done (discard_done hread)).trans ?_))⟩
      refine (bind_done hnext).trans ?_
      have hb : (0x30 ≤ b && b ≤ 0x39) = true := hb
      simp only
      rw [if_pos hb]
      exact discard_done hdigits

theorem takesItem_skipFraction {fraction exponent : List UInt8} (hfraction : IsFraction fraction)
    (hexponent : IsExponent exponent) : TakesItem skipFraction (fraction ++ exponent) () := by
  intro rest p hrest
  cases hfraction with
  | none =>
      obtain ⟨q, hskip⟩ := takesItem_skipExponent? hexponent rest p hrest
      refine ⟨q, Eq.trans ?_ hskip⟩
      cases hexponent with
      | none =>
          refine peek_bind_of_endsNumber rfl (fun b hpoint _ _ => ?_) (endsNumber_of_endsItem hrest) p
          simp [hpoint]
      | digits hmark hsign hb hds => rcases hmark with rfl | rfl <;> rfl
  | @digits ds hds hne =>
      obtain ⟨q, hskip⟩ := takesItem_skipExponent? hexponent rest ((p.after 0x2e).behind ds) hrest
      have hdigits : digits ⟨ds ++ (exponent ++ rest), p.after 0x2e⟩ =
          .done (ds.map digitValue) ⟨exponent ++ rest, (p.after 0x2e).behind ds⟩ := by
        rw [digits, digitsFrom_digits hds (startsDigit_exponent hexponent hrest)]
      have hempty : (ds.map digitValue).isEmpty = false := by simpa using hne
      refine ⟨q, Eq.trans ?_ hskip⟩
      rw [List.append_assoc]
      change (digits >>= fun fraction => if fraction.isEmpty then refuseNext .badNumber else skipExponent? :
        Reader Unit) ⟨ds ++ (exponent ++ rest), p.after 0x2e⟩ = _
      rw [bind_done hdigits, hempty]
      rfl

theorem skipNumber_whole {whole : List UInt8} (h : IsInteger whole) {more : List UInt8}
    (hmore : startsDigit more = false) (p : Position) :
    ∃ q, skipNumber ⟨whole ++ more, p⟩ = skipFraction ⟨more, q⟩ := by
  cases h with
  | zero =>
      refine ⟨p.after 0x30, ?_⟩
      cases more with
      | nil => rfl
      | cons b more =>
          have hb : (0x30 ≤ b && b ≤ 0x39) = false := hmore
          change (if (0x30 ≤ b && b ≤ 0x39) = true then refuseNext .badNumber else skipFraction : Reader Unit)
            ⟨b :: more, p.after 0x30⟩ = _
          rw [hb]
          rfl
  | @more b ds hb hds =>
      have hnext : next ⟨b :: (ds ++ more), p⟩ = .done (some b) ⟨ds ++ more, p.after b⟩ := rfl
      have hread : digits ⟨ds ++ more, p.after b⟩ = .done (ds.map digitValue) ⟨more, (p.after b).behind ds⟩ := by
        rw [digits, digitsFrom_digits hds hmore]
      have hzero : b ≠ 0x30 := by
        rintro rfl
        cases hb
      refine ⟨(p.after b).behind ds, (bind_done hnext).trans ?_⟩
      simp only
      rw [if_pos hb]
      exact bind_done (discard_done hread)

theorem takesItem_skipNumber {text : List UInt8} (h : IsMagnitude text) : TakesItem skipNumber text () := by
  intro rest p hrest
  obtain ⟨hwhole, hfraction, hexponent⟩ := h
  obtain ⟨q, hskip⟩ := skipNumber_whole hwhole (startsDigit_fraction hfraction hexponent hrest) p
  obtain ⟨q', hmore⟩ := takesItem_skipFraction hfraction hexponent rest q hrest
  rw [List.append_assoc]
  exact ⟨q', hskip.trans hmore⟩

end Reader

end ChainHead.Json
