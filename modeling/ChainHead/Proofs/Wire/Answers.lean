import ChainHead.Proofs.Json.Yields
import ChainHead.Proofs.Wire.RoundTrip

/-! What a record that was read is made of. Each of its values comes from the reader of its field, one level deeper, or
stands for a field that was left out, whether the record was read from its members or from a list. -/

namespace ChainHead.Wire

open Json Reader

variable {α : Type}

/-- A codec can answer with a value, with so many levels left. -/
def Codec.Gives (c : Codec α) (levels : Nat) (a : α) : Prop :=
  ∃ before behind, c.read levels before = .done a behind

theorem Codec.gives_of_decode {c : Codec α} {bytes : List UInt8} {a : α} (h : c.decode bytes = .ok a) :
    c.Gives levels a :=
  yields_of_run (.answers _) h

/-- A value of a field was read or is that of an absent field. -/
def Codec.GivesOr (c : Codec α) (absence : Absence α) (levels : Nat) (a : α) : Prop :=
  c.Gives levels a ∨ absence.byName? = some a ∨ absence.byPlace? = some a

namespace Fields

def Given (levels : Nat) : {τ : Type} → Fields τ → τ → Prop
  | _, .nil, _ => True
  | _, .cons _ codec absence others, (a, rest) => codec.GivesOr absence levels a ∧ others.Given levels rest

/-- The values that are in their slots were read. -/
def Filled (levels : Nat) : {τ : Type} → (fs : Fields τ) → fs.Slots → Prop
  | _, .nil, _ => True
  | _, @Fields.cons α _ _ codec _ others, slots =>
    let slots : Option α × others.Slots := slots
    (∀ a ∈ slots.1, codec.Gives levels a) ∧ others.Filled levels slots.2

variable {τ : Type} {levels : Nat}

theorem filled_blank (fs : Fields τ) : fs.Filled levels fs.blank := by
  induction fs with
  | nil => exact True.intro
  | cons name codec absence others ih => exact And.intro (fun _ h => nomatch h) ih

theorem yields_readMember (fs : Fields τ) (key : String) {slots : fs.Slots} (h : fs.Filled levels slots) :
    Yields (fs.readMember levels key slots) (fs.Filled levels) := by
  induction fs with
  | nil => exact .behind fun _ => .behind fun _ => .pure h
  | cons name codec absence others ih =>
      obtain ⟨slot, rest⟩ := slots
      obtain ⟨hslot, hrest⟩ := h
      by_cases hkey : key = name
      · subst hkey
        cases slot with
        | some a =>
            simp only [readMember, if_pos]
            exact .refuseValue _
        | none =>
            rw [readMember_of_eq]
            refine .behind fun _ => (Yields.answers (codec.read levels)).bind fun a ha => .pure ?_
            exact And.intro (fun b hb => Option.some.inj hb ▸ ha) hrest
      · rw [readMember_of_ne hkey]
        exact (ih hrest).map fun others hothers => ⟨hslot, hothers⟩

theorem finish_cons_eq_ok {β : Type} {name : String} {codec : Codec α} {absence : Absence α} {others : Fields β}
    {slot : Option α} {rest : others.Slots} {a : α} {values : β}
    (h : (cons name codec absence others).finish (slot, rest) = .ok (a, values)) :
    (slot = some a ∨ absence.byName? = some a) ∧ others.finish rest = .ok values := by
  have hothers {b : α} (h : (do return (b, ← others.finish rest)) = Except.ok (a, values)) :
      b = a ∧ others.finish rest = .ok values := by
    cases hrest : others.finish rest with
    | error reason =>
        rw [hrest] at h
        cases h
    | ok values =>
        rw [hrest] at h
        cases h
        exact ⟨rfl, rfl⟩
  simp only [finish] at h
  cases slot with
  | some b => exact (hothers h).imp_left fun heq => .inl (congrArg some heq)
  | none =>
      cases habsent : absence.byName? with
      | none =>
          rw [habsent] at h
          cases h
      | some b =>
          rw [habsent] at h
          exact (hothers h).imp_left fun heq => .inr (congrArg some heq)

theorem given_of_finish {fs : Fields τ} {slots : fs.Slots} (h : fs.Filled levels slots) {values : τ}
    (hfinish : fs.finish slots = .ok values) : fs.Given levels values := by
  induction fs with
  | nil => trivial
  | cons name codec absence others ih =>
      obtain ⟨slot, rest⟩ := slots
      obtain ⟨hslot, hrest⟩ := h
      obtain ⟨a, values⟩ := values
      obtain ⟨ha, hfinish⟩ := finish_cons_eq_ok hfinish
      exact ⟨ha.imp (hslot a) Or.inl, ih hrest hfinish⟩

theorem yields_readMembers (fs : Fields τ) : Yields (fs.readMembers levels) (fs.Given levels) := by
  have hstep (state : Bool × fs.Slots) (hstate : fs.Filled levels state.2) :
      Yields (memberStep levels fs state) (Sum.elim (fun state => fs.Filled levels state.2) (fs.Filled levels)) := by
    refine .behind fun key => ?_
    cases key with
    | none => exact .pure hstate
    | some key => exact (fs.yields_readMember key hstate).bind fun slots hslots => .pure hslots
  refine (Yields.loop hstep (s := (true, fs.blank)) fs.filled_blank).bind fun slots hslots => ?_
  cases hfinish : fs.finish slots with
  | error reason => exact .refuseValue reason
  | ok values => exact .pure (given_of_finish hslots hfinish)

theorem yields_readItems (fs : Fields τ) (expected : String) (index : Nat) :
    Yields (fs.readItems levels expected index) (fs.Given levels) := by
  induction fs generalizing index with
  | nil => exact .pure trivial
  | cons name codec absence others ih =>
      have hothers (a : _) (ha : codec.GivesOr absence levels a) : Yields
          (others.readItems levels expected (index + 1) >>= fun rest => pure (a, rest))
          (Given levels (cons name codec absence others)) :=
        (ih (index + 1)).bind fun rest hrest => .pure ⟨ha, hrest⟩
      rw [readItems]
      refine .behind fun more => ?_
      cases more with
      | true => exact (Yields.answers (codec.read levels)).bind fun a ha => hothers a (.inl ha)
      | false =>
          cases habsent : absence.byPlace? with
          | none => exact Yields.bind (.refuseValue _) hothers
          | some a => exact hothers a (.inr (.inr habsent))

end Fields

theorem given_of_gives {τ : Type} {name : String} {fs : Fields τ} {make : τ → α} {parts : α → τ} {levels : Nat} {a : α}
    (h : (record name fs make parts).Gives (levels + 1) a) : ∃ values, fs.Given levels values ∧ make values = a := by
  have hread : Yields ((record name fs make parts).read (levels + 1)) fun a =>
      ∃ values, fs.Given levels values ∧ make values = a := by
    refine .located (.behind fun first => ?_)
    split
    · exact .refuseNext _
    · refine (Yields.listOf fun inner h => ?_).map fun values hvalues => ⟨values, hvalues, rfl⟩
      cases h
      exact fs.yields_readItems _ 0
    · refine (Yields.recordOf fun inner h => ?_).map fun values hvalues => ⟨values, hvalues, rfl⟩
      cases h
      exact fs.yields_readMembers
    · exact .unexpected _
  obtain ⟨before, behind, hdone⟩ := h
  exact hread before a behind hdone

end ChainHead.Wire
