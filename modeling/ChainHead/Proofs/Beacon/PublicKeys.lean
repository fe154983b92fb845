import ChainHead.Proofs.Beacon.Snapshots
import ChainHead.Proofs.Wire.Torn
import Mathlib.Data.List.Forall2
import Mathlib.Data.List.TakeWhile

/-! The canonical form of public keys. Blanks around a key, one mark in front of it and the case of its ASCII letters do
not matter; all else does, and so do a second mark and blanks behind the mark. The canonical form is a form of the key
itself, whatever the text is that it is made from. -/

namespace ChainHead

/-! ### Blanks around a text -/

/-- Blanks around a text that neither begins nor ends with one are dropped. -/
theorem Blank.trim_append {before text behind : List Char} (hbefore : ∀ c ∈ before, isBlank c = true)
    (hbehind : ∀ c ∈ behind, isBlank c = true) (hfirst : ∀ c ∈ text.head?, isBlank c = false)
    (hlast : ∀ c ∈ text.getLast?, isBlank c = false) : trim (before ++ (text ++ behind)) = text := by
  rw [trim, List.dropWhile_append_of_pos hbefore]
  cases text with
  | nil =>
      rw [List.nil_append, List.dropWhile_eq_nil_iff.mpr hbehind]
      rfl
  | cons c rest =>
      have hc := hfirst c rfl
      have hreverse : ∀ d ∈ behind.reverse, isBlank d = true := fun d hd => hbehind d (List.mem_reverse.mp hd)
      rw [List.cons_append, List.dropWhile_cons_of_neg (by simp [hc]), ← List.cons_append, trimEnd, List.reverse_append,
        List.dropWhile_append_of_pos hreverse, ← trimEnd]
      exact trimEnd_eq_self hlast

namespace PublicKey

/-! ### The case of letters -/

/-- The same character, or the same ASCII letter in the other case. -/
def Alike (c d : Char) : Prop :=
  c = d ∨ ('A' ≤ c ∧ c ≤ 'Z') ∧ d.toNat = c.toNat + 32 ∨ ('A' ≤ d ∧ d ≤ 'Z') ∧ c.toNat = d.toNat + 32

theorem upper_iff {c : Char} : 'A' ≤ c ∧ c ≤ 'Z' ↔ 65 ≤ c.toNat ∧ c.toNat ≤ 90 := Iff.rfl

theorem toNat_toLower (c : Char) :
    c.toLower.toNat = if 65 ≤ c.toNat ∧ c.toNat ≤ 90 then c.toNat + 32 else c.toNat := by
  have hiff : (c.val ≥ 'A'.val ∧ c.val ≤ 'Z'.val) ↔ 65 ≤ c.toNat ∧ c.toNat ≤ 90 := Iff.rfl
  by_cases h : 65 ≤ c.toNat ∧ c.toNat ≤ 90
  · have hlower : c.toLower.val = c.val + 32 := congrArg Char.val (dif_pos (hiff.mpr h))
    rw [if_pos h, Char.toNat, hlower, UInt32.toNat_add]
    change (c.toNat + 32) % 4294967296 = c.toNat + 32
    omega
  · have hsame : c.toLower = c := dif_neg (mt hiff.mp h)
    rw [if_neg h, hsame]

theorem alike_iff {c d : Char} : Alike c d ↔ c.toLower = d.toLower := by
  rw [Alike, upper_iff, upper_iff, ← Char.toNat_inj, ← Char.toNat_inj (c := c.toLower), toNat_toLower, toNat_toLower]
  split_ifs <;> omega

theorem forall₂_alike_iff {h other : List Char} :
    List.Forall₂ Alike h other ↔ h.map Char.toLower = other.map Char.toLower := by
  have hrelation : Alike = fun c d => c.toLower = d.toLower := funext₂ fun c d => propext alike_iff
  rw [hrelation, ← congrFun₂ List.forall₂_eq_eq_eq (h.map Char.toLower), List.forall₂_map_left_iff,
    List.forall₂_map_right_iff]

/-! ### Spellings of a key -/

/-- A text without blanks around it and without a mark. -/
structure IsBare (h : List Char) : Prop where
  first : ∀ c ∈ h.head?, Blank.isBlank c = false
  last : ∀ c ∈ h.getLast?, Blank.isBlank c = false
  unmarked : ∀ letter rest, letter = 'x' ∨ letter = 'X' → h ≠ '0' :: letter :: rest

/-- What may stand for a bare text: the text with its letters in any case, behind one mark or none, with blanks around
it. -/
def Stands (h text : List Char) : Prop :=
  ∃ before mark other behind, text = before ++ (mark ++ other ++ behind) ∧ (∀ c ∈ before, Blank.isBlank c = true) ∧
    (mark = [] ∨ mark = ['0', 'x'] ∨ mark = ['0', 'X']) ∧ List.Forall₂ Alike h other ∧
      ∀ c ∈ behind, Blank.isBlank c = true

theorem eq_mark_of_alike {c d letter : Char} (hzero : Alike c '0') (h : Alike d letter)
    (hletter : letter = 'x' ∨ letter = 'X') : c = '0' ∧ (d = 'x' ∨ d = 'X') := by
  simp only [Alike, upper_iff, ← Char.toNat_inj, Char.reduceToNat] at hzero h hletter ⊢
  omega

theorem map_isBlank_of_alike {h other : List Char} (halike : List.Forall₂ Alike h other) :
    h.map Blank.isBlank = other.map Blank.isBlank := by
  have hlower (text : List Char) : text.map Blank.isBlank = (text.map Char.toLower).map Blank.isBlank := by
    rw [List.map_map]
    exact List.map_congr_left fun c _ => (isBlank_toLower c).symm
  rw [hlower h, forall₂_alike_iff.mp halike, ← hlower]

/-- The case of letters decides neither where blanks are nor whether there is a mark. -/
theorem IsBare.of_alike {h other : List Char} (hbare : IsBare h) (halike : List.Forall₂ Alike h other) :
    IsBare other := by
  have hblanks := map_isBlank_of_alike halike
  constructor
  · intro c hc
    have hhead : Blank.isBlank c ∈ (h.map Blank.isBlank).head? := by
      rw [hblanks, List.head?_map]
      exact Option.mem_map_of_mem _ hc
    rw [List.head?_map] at hhead
    obtain ⟨d, hd, heq⟩ := Option.mem_map.mp hhead
    rw [← heq, hbare.first d hd]
  · intro c hc
    have hlast : Blank.isBlank c ∈ (h.map Blank.isBlank).getLast? := by
      rw [hblanks, List.getLast?_map]
      exact Option.mem_map_of_mem _ hc
    rw [List.getLast?_map] at hlast
    obtain ⟨d, hd, heq⟩ := Option.mem_map.mp hlast
    rw [← heq, hbare.last d hd]
  · rintro letter rest hletter rfl
    cases halike with
    | cons hzero hmore =>
        cases hmore with
        | cons hmark hrest =>
            obtain ⟨rfl, hd⟩ := eq_mark_of_alike hzero hmark hletter
            exact hbare.unmarked _ _ hd rfl

theorem unmark_of_isBare {h : List Char} (hbare : IsBare h) : unmark h = h :=
  unmark.eq_3 h (fun rest => hbare.unmarked 'x' rest (.inl rfl)) fun rest => hbare.unmarked 'X' rest (.inr rfl)

theorem unmark_append {mark h : List Char} (hmark : mark = [] ∨ mark = ['0', 'x'] ∨ mark = ['0', 'X']) (hbare : IsBare h) :
    unmark (mark ++ h) = h := by
  rcases hmark with rfl | rfl | rfl
  · exact unmark_of_isBare hbare
  · rfl
  · rfl

theorem trim_of_isBare {before mark h behind : List Char} (hbefore : ∀ c ∈ before, Blank.isBlank c = true)
    (hmark : mark = [] ∨ mark = ['0', 'x'] ∨ mark = ['0', 'X']) (hbare : IsBare h)
    (hbehind : ∀ c ∈ behind, Blank.isBlank c = true) :
    Blank.trim (before ++ (mark ++ h ++ behind)) = mark ++ h := by
  refine Blank.trim_append hbefore hbehind (fun c hc => ?_) fun c hc => ?_
  · rcases hmark with rfl | rfl | rfl
    · exact hbare.first c hc
    · cases hc
      rfl
    · cases hc
      rfl
  · rw [List.getLast?_append] at hc
    cases hlast : h.getLast? with
    | some d =>
        rw [hlast] at hc
        cases hc
        exact hbare.last _ hlast
    | none =>
        rw [hlast] at hc
        rcases hmark with rfl | rfl | rfl <;> cases hc <;> rfl

/-- Whatever stands for a bare text, its canonical form is the mark and the text in lower case. -/
theorem normalize_of_stands {h text : List Char} (hbare : IsBare h) (hstands : Stands h text) :
    normalize text = '0' :: 'x' :: h.map Char.toLower := by
  obtain ⟨before, mark, other, behind, rfl, hbefore, hmark, halike, hbehind⟩ := hstands
  have hother := hbare.of_alike halike
  rw [normalize, trim_of_isBare hbefore hmark hother hbehind, unmark_append hmark hother, forall₂_alike_iff.mp halike]

theorem of_eq_of_iff {s t : String} : of s = of t ↔ normalize s.toList = normalize t.toList := by
  rw [of, of, mk.injEq, String.ofList_inj]

/-- Keys of bare texts are equal exactly if the texts are alike. -/
theorem of_eq_of_stands_iff {h other : List Char} {s t : String} (hbare : IsBare h) (hs : Stands h s.toList)
    (hother : IsBare other) (ht : Stands other t.toList) : of s = of t ↔ List.Forall₂ Alike h other := by
  rw [of_eq_of_iff, normalize_of_stands hbare hs, normalize_of_stands hother ht, forall₂_alike_iff]
  exact ⟨fun heq => (List.cons.inj (List.cons.inj heq).2).2, fun heq => congrArg (fun text => '0' :: 'x' :: text) heq⟩

/-! ### Keys in JSON -/

theorem takes_textRead {raw : List UInt8} {s : String} (h : Json.Spells raw s.toList) (levels : Nat) :
    Json.Reader.Takes (Wire.text.read levels) (Json.stringText raw) s :=
  .located (.of_goesOn (Json.Reader.goesOn_ahead rfl) (.of_goesOn Json.Reader.goesOn_eat (Json.Reader.takes_text h)))

/-- A string, with blanks around it, is decoded to the key of the text that it stands for. -/
theorem decode_string {i : Json.Item} {raw : List UInt8} {s : String} (hvalue : i.value = Json.stringText raw)
    (h : Json.Spells raw s.toList) : codec.decode i.text = .ok (of s) := by
  have hdecode : Wire.text.decode i.text = .ok s := by
    rw [Json.Item.text, hvalue]
    exact Wire.decodeAt_of_takesItem (Wire.text_settles.skipsBlanks Json.Reader.levels) (takes_textRead h _).item
      i.blanks_before i.blanks_behind
  rw [decode_eq, hdecode]
  rfl

/-- Whatever stands for a bare text makes the key of its lower case, and two such keys are equal exactly if their bare
texts are alike. Whatever its text, a key is the key of its own form and is read back from JSON; and a string in JSON
and a part of a text make the key of their text. -/
theorem keys_have_one_form :
    (∀ h s, IsBare h → Stands h s.toList → (of s).text = String.ofList ('0' :: 'x' :: h.map Char.toLower)) ∧
      (∀ h s other t, IsBare h → Stands h s.toList → IsBare other → Stands other t.toList →
        (of s = of t ↔ List.Forall₂ Alike h other)) ∧
      (∀ s, of (of s).text = of s) ∧
      (∀ s, codec.decode (codec.encode (of s)) = .ok (of s)) ∧
      (∀ (i : Json.Item) raw s, i.value = Json.stringText raw → Json.Spells raw s.toList →
        codec.decode i.text = .ok (of s)) ∧
      ∀ s : String, ofSlice s.toSlice = of s := by
  refine ⟨fun h s hbare hstands => ?_, fun h s other t hbare hstands hother hstands' => ?_, fun s => of_text (of s),
    fun s => ((restores 0).faithful (by decide)).decode_encode (of s) trivial,
    fun i raw s hvalue hspells => decode_string hvalue hspells, fun s => ?_⟩
  · exact congrArg String.ofList (normalize_of_stands hbare hstands)
  · exact of_eq_of_stands_iff hbare hstands hother hstands'
  · rw [ofSlice, String.copy_toSlice]

/-- A key with a blank inside, in mixed case behind a mark in upper case, with an em space in front of it. -/
theorem keys_have_one_form_padded :
    IsBare "a C".toList ∧ Stands "a C".toList "\u20030XA c\n".toList ∧ (of "\u20030XA c\n").text = "0xa c" := by
  have hbare : IsBare "a C".toList := by
    refine ⟨?_, ?_, ?_⟩
    · rintro c ⟨⟩
      decide
    · rintro c ⟨⟩
      decide
    · rintro letter rest - h
      cases h
  have hstands : Stands "a C".toList "\u20030XA c\n".toList := by
    refine ⟨['\u2003'], ['0', 'X'], ['A', ' ', 'c'], ['\n'], rfl, ?_, .inr (.inr rfl), ?_, ?_⟩
    · exact List.forall_mem_singleton.mpr (by decide)
    · rw [forall₂_alike_iff]
      rfl
    · exact List.forall_mem_singleton.mpr (by decide)
  exact ⟨hbare, hstands, keys_have_one_form.1 _ _ hbare hstands⟩

end PublicKey

end ChainHead
