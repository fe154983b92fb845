import ChainHead.Beacon.Endpoint
import ChainHead.Proofs.Url.Segments
import ChainHead.Proofs.Wire.Elements

/-! The URLs of the resources of a node. Below a base, each resource has the path of the base with one slash at its
end, and then its documented path; its query is its own, and nothing is left of the query and the fragment of the base.
The names of blocks and the numbers in a path tell each other apart, so two resources never have the same URL. -/

namespace ChainHead

open Url

/-! ### Names and numbers -/

theorem isPlain_of_isDigit {c : Char} (h : c.isDigit = true) : isPlain c = true := by
  simp [isPlain, Char.isAlphanum, h]

theorem plain_word {s : String} (h : (s != "" && s.toList.all isPlain) = true) :
    s ≠ "" ∧ ∀ c ∈ s.toList, isPlain c = true := by
  simpa using h

theorem plain_numeral (n : Nat) : Numeral.text n ≠ "" ∧ ∀ c ∈ (Numeral.text n).toList, isPlain c = true := by
  refine ⟨fun h => Numeral.digits_ne_nil n ?_, fun c hc => ?_⟩
  · rw [← String.toList_ofList (l := Numeral.digits n), ← Numeral.text, h]
    rfl
  · rw [Numeral.text, String.toList_ofList] at hc
    exact isPlain_of_isDigit (Numeral.isDigit_of_mem_digits hc)

theorem text_inj {m n : UInt64} (h : Numeral.text m.toNat = Numeral.text n.toNat) : m = n := by
  have hdigits : Numeral.digits m.toNat = Numeral.digits n.toNat := by
    rw [← String.toList_ofList (l := Numeral.digits m.toNat), ← Numeral.text, h, Numeral.text, String.toList_ofList]
  have hread := Numeral.read_digits m
  rw [hdigits, Numeral.read_digits] at hread
  exact (Except.ok.inj hread).symm

/-- A numeral is none of the words. -/
theorem text_ne_of_not_digit {word : String} (h : word.toList.all Char.isDigit = false) (n : Nat) :
    Numeral.text n ≠ word := by
  rintro rfl
  rw [Numeral.text, String.toList_ofList, List.all_eq_true.mpr fun c hc => Numeral.isDigit_of_mem_digits hc] at h
  cases h

namespace BlockId

theorem plain_text (id : BlockId) : id.text ≠ "" ∧ ∀ c ∈ id.text.toList, isPlain c = true := by
  cases id with
  | head => exact plain_word (by decide)
  | genesis => exact plain_word (by decide)
  | finalized => exact plain_word (by decide)
  | slot n => exact plain_numeral n.toNat
  | root hash =>
      refine ⟨fun h => ?_, fun c hc => ?_⟩
      · have hnil := String.ofList_eq.mp h
        cases hnil
      · rw [text, String.toList_ofList] at hc
        exact Hex.forall_mem_encode (by decide) (by decide) hash.toList c hc

/-- A root begins with the mark that no other name has. -/
theorem text_root_ne {hash : Hash} {other : String} (h : other.toList.take 2 ≠ ['0', 'x']) :
    (root hash).text ≠ other := by
  rintro rfl
  rw [text, String.toList_ofList] at h
  exact h rfl

/-- The name of a block is read as the block. -/
theorem read_text (id : BlockId) : read id.text = .ok id := by
  cases id with
  | head => rfl
  | genesis => rfl
  | finalized => rfl
  | slot n =>
      have hword {word : String} (h : word.toList.all Char.isDigit = false) : (slot n).text ≠ word :=
        text_ne_of_not_digit h n.toNat
      have hchars : (slot n).text.toList = Numeral.digits n.toNat := String.toList_ofList
      rw [read, if_neg (hword (by decide)), if_neg (hword (by decide)), if_neg (hword (by decide)), hchars]
      split
      · rename_i heq
        have hx : 'x' ∈ Numeral.digits n.toNat := by simp [heq]
        exact absurd (Numeral.isDigit_of_mem_digits hx) (by decide)
      · rw [Numeral.read_digits]
  | root hash =>
      have hdecode := Hex.decodeSized_encode hash.toList
      rw [Vector.length_toList] at hdecode
      rw [read, if_neg (text_root_ne (by decide)), if_neg (text_root_ne (by decide)), if_neg (text_root_ne (by decide)),
        text, String.toList_ofList]
      change readRoot (String.ofList (Hex.encode hash.toList)) = _
      rw [readRoot, hdecode]
      dsimp only
      rw [Wire.exactly_toList]

theorem text_inj {a b : BlockId} (h : a.text = b.text) : a = b := by
  have hread := read_text a
  rw [h, read_text b] at hread
  exact (Except.ok.inj hread).symm

end BlockId

/-! ### Resources -/

namespace Endpoint

theorem plain_segments (e : Endpoint) : Plain e.segments := by
  have hnumber (n : UInt64) : numbered n ≠ "" ∧ ∀ c ∈ (numbered n).toList, isPlain c = true := plain_numeral n.toNat
  cases e <;> repeat first
    | exact List.forall_mem_nil _
    | refine List.forall_mem_cons.mpr ⟨plain_word (by decide), ?_⟩
    | refine List.forall_mem_cons.mpr ⟨hnumber _, ?_⟩
    | refine List.forall_mem_cons.mpr ⟨BlockId.plain_text _, ?_⟩

theorem segments_ne_nil (e : Endpoint) : e.segments ≠ [] := by
  cases e <;> exact List.cons_ne_nil _ _

/-- The segments of a resource tell it from all others, since no number is a word. -/
theorem segments_inj {e other : Endpoint} (h : e.segments = other.segments) : e = other := by
  cases e <;> cases other <;> simp only [segments, List.cons.injEq, reduceCtorEq, and_true, and_false, true_and,
    false_and, String.reduceEq] at h
  all_goals first
    | rfl
    | exact congrArg _ (text_inj h)
    | exact congrArg _ (BlockId.text_inj h)
    | exact absurd h (text_ne_of_not_digit (by decide) _)
    | exact absurd h.symm (text_ne_of_not_digit (by decide) _)

theorem reference_inj {e other : Endpoint} (h : e.reference = other.reference) : e = other := by
  have hpieces := pieces_intercalate e.plain_segments e.segments_ne_nil
  rw [← reference, h, reference, pieces_intercalate other.plain_segments other.segments_ne_nil] at hpieces
  have hinjective : Function.Injective String.toList := fun _ _ hchars => String.toList_inj.mp hchars
  exact segments_inj (List.map_injective_iff.mpr hinjective hpieces.symm)

/-- The documented path of a resource, relative to the path of its node. -/
def documented : Endpoint → String
  | .syncing => "eth/v1/node/syncing"
  | .proposerDuties epoch => "eth/v1/validator/duties/proposer/" ++ numbered epoch
  | .headHeader => "eth/v1/beacon/headers/head"
  | .header slot => "eth/v1/beacon/headers/" ++ numbered slot
  | .block id => "eth/v2/beacon/blocks/" ++ id.text
  | .blocks => "eth/v1/beacon/blocks"
  | .genesis => "eth/v1/beacon/genesis"
  | .spec => "eth/v1/config/spec"
  | .forkSchedule => "eth/v1/config/fork_schedule"
  | .randao slot => "eth/v1/beacon/states/" ++ numbered slot ++ "/randao"
  | .withdrawals slot => "eth/v1/beacon/states/" ++ numbered slot ++ "/withdrawals"
  | .validators slot => "eth/v1/beacon/states/" ++ numbered slot ++ "/validators"
  | .headEvents => "eth/v1/events"

/-- A segment behind words, and what stands behind that. -/
theorem intercalate_words {words : List String} {path : String} (hne : words ≠ [])
    (h : String.intercalate "/" words ++ "/" = path) (s : String) {more : List String} :
    String.intercalate "/" (words ++ s :: more) = path ++ String.intercalate "/" (s :: more) := by
  rw [String.intercalate_append_of_ne_nil hne (List.cons_ne_nil s more), h]

theorem reference_eq (e : Endpoint) : e.reference = e.documented := by
  have hfront : String.intercalate "/" ["eth", "v1", "beacon", "states"] ++ "/" = "eth/v1/beacon/states/" := by decide
  have hstates (slot : UInt64) {word path : String} (h : "/" ++ word = path) :
      String.intercalate "/" (["eth", "v1", "beacon", "states"] ++ [numbered slot, word]) =
        "eth/v1/beacon/states/" ++ numbered slot ++ path := by
    rw [intercalate_words (List.cons_ne_nil _ _) hfront, String.intercalate_cons_cons, String.intercalate_singleton,
      ← h]
    simp only [String.append_assoc]
  cases e with
  | proposerDuties epoch =>
      exact intercalate_words (List.cons_ne_nil _ ["v1", "validator", "duties", "proposer"]) (by decide) _
  | header slot => exact intercalate_words (List.cons_ne_nil _ ["v1", "beacon", "headers"]) (by decide) _
  | block id => exact intercalate_words (List.cons_ne_nil _ ["v2", "beacon", "blocks"]) (by decide) _
  | randao slot => exact hstates slot (show "/" ++ "randao" = _ by decide)
  | withdrawals slot => exact hstates slot (show "/" ++ "withdrawals" = _ by decide)
  | validators slot => exact hstates slot (show "/" ++ "validators" = _ by decide)
  | _ => decide

/-- The query of a resource, if it has one. -/
def query? : Endpoint → Option String
  | .validators _ => some "status=active%2Cpending"
  | .headEvents => some "topics=head"
  | _ => none

variable {base : Url} {a : Authority} {segments : List String}

/-- The URL of a resource, in parts. -/
theorem url_eq (h : IsBase base a segments) (e : Endpoint) :
    e.url base = .ok ⟨base.scheme, .divided (some a) (openSegments segments ++ e.segments), e.query?, none⟩ := by
  have hbelow := h.descend e.plain_segments e.segments_ne_nil
  rw [url, reference, hbelow]
  cases e <;> rfl

/-- The reference of a resource leads to it wherever it is resolved, whatever is known of international domains. -/
theorem join_reference [Idna] (u : Url) (e : Endpoint) : u.join e.reference = u.descend e.reference :=
  join_eq_descend u e.plain_segments e.segments_ne_nil

/-- Below a URL and below its directory there are the same resources. -/
theorem url_directory (h : IsBase base a segments) (e : Endpoint) : e.url base.directory = e.url base := by
  rw [url, h.directory_directory, ← url]

/-- What stands in front of the path in the text of a URL with an authority. -/
def front (base : Url) (a : Authority) : String := base.scheme ++ "://" ++ a.credentials ++ a.target

/-- The URL of a resource, as a text. -/
theorem text_url (h : IsBase base a segments) {e : Endpoint} {u : Url} (hu : e.url base = .ok u) :
    u.text = front base a ++ slashed base.path ++ e.documented ++ marked "?" e.query? := by
  rw [url_eq h] at hu
  obtain rfl := Except.ok.inj hu
  have hpath : segmentsText (openSegments segments ++ e.segments) = slashed base.path ++ e.documented := by
    rw [← h.path_directory, path, h.directory.place, Place.path, closed_eq, segmentsText_append, segmentsText_append,
      segmentsText_eq e.segments_ne_nil, ← reference, reference_eq, ← String.append_assoc]
    rfl
  have hplace : (Place.divided (some a) (openSegments segments ++ e.segments)).text =
      "//" ++ a.credentials ++ a.target ++ segmentsText (openSegments segments ++ e.segments) := rfl
  rw [Url.text, hplace, hpath, front]
  simp only [marked, String.append_empty, ← String.toList_inj, String.toList_append, List.append_assoc]
  rfl

/-- The path of a resource is what stands in front of its query. -/
theorem takeWhile_documented (e : Endpoint) :
    (e.documented ++ marked "?" e.query?).toList.takeWhile (fun c => c != '?') = e.documented.toList := by
  have hpath : ∀ c ∈ e.documented.toList, (c != '?') = true := by
    intro c hc
    rw [← reference_eq] at hc
    rw [bne_iff_ne]
    rcases char_of_mem_intercalate e.plain_segments hc with hc | rfl
    · exact ne_of_isPlain hc rfl
    · decide
  have hquery : (marked "?" e.query?).toList.takeWhile (fun c => c != '?') = [] := by
    cases e.query? with
    | none => rfl
    | some query =>
        rw [marked, String.toList_append]
        rfl
  rw [String.toList_append, List.takeWhile_append_of_pos hpath, hquery, List.append_nil]

/-- Two resources never have the same URL below a base. -/
theorem url_inj (h : IsBase base a segments) {e other : Endpoint} {u v : Url} (hu : e.url base = .ok u)
    (hv : other.url base = .ok v) (htext : u.text = v.text) : e = other := by
  have hback : e.documented ++ marked "?" e.query? = other.documented ++ marked "?" other.query? := by
    have hchars := String.toList_inj.mpr ((text_url h hu).symm.trans (htext.trans (text_url h hv)))
    simp only [String.append_assoc, String.toList_append (s := front base a),
      String.toList_append (s := slashed base.path)] at hchars
    exact String.toList_inj.mp (List.append_cancel_left (List.append_cancel_left hchars))
  have hpath := takeWhile_documented e
  rw [hback, takeWhile_documented other, String.toList_inj, ← reference_eq, ← reference_eq] at hpath
  exact reference_inj hpath.symm

end Endpoint

end ChainHead
