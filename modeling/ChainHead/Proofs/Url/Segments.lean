import ChainHead.Proofs.Url.Hosts
import Mathlib.Data.List.TakeDrop
import Mathlib.Data.String.Basic

/-! The segments of a path. Those of a URL that was read hold no slash, so its path ends in a slash exactly if its last
segment is empty. A plain segment stands for itself wherever it is put, so a path of plain segments can be put behind
the path of any directory. -/

namespace ChainHead.Url

/-! ### No slash in a segment -/

theorem slash_notMem_byte (b : UInt8) : '/' ∉ Percent.byte b := by
  have hdigit : ∀ n < 16, Percent.digit n ≠ '/' := by decide
  have hb := b.toNat_lt
  rw [Percent.byte, List.mem_cons, List.mem_cons, List.mem_singleton, not_or, not_or]
  exact ⟨by decide, (hdigit _ (by omega)).symm, (hdigit _ (by omega)).symm⟩

theorem slash_notMem_encode {set : Char → Bool} {text : List Char} (h : '/' ∉ text) :
    '/' ∉ Percent.encode set text := by
  intro hmem
  obtain ⟨c, hc, hslash⟩ := List.mem_flatMap.mp hmem
  rw [Percent.escape] at hslash
  split at hslash
  · obtain ⟨b, -, hb⟩ := List.mem_flatMap.mp hslash
    exact slash_notMem_byte b hb
  · rw [List.mem_singleton.mp hslash] at h
    exact h hc

/-- Segments with no slash in them. -/
def Parted (segments : List String) : Prop := ∀ s ∈ segments, '/' ∉ s.toList

theorem parted_back {file : Bool} {before : List String} (h : Parted before) : Parted (back file before) := by
  intro s hs
  unfold back at hs
  split at hs
  · cases hs
  · split at hs
    · exact h s hs
    · cases hs
  · exact h s (List.mem_cons_of_mem _ hs)

theorem parted_segment {before : List String} {piece : List Char} (hbefore : Parted before) (hpiece : '/' ∉ piece) :
    Parted (segment false before piece :: before) := by
  intro s hs
  rcases List.mem_cons.mp hs with rfl | hs
  · simp only [segment, Bool.false_and, Bool.false_eq_true, if_false, String.toList_ofList]
    exact slash_notMem_encode hpiece
  · exact hbefore s hs

theorem parted_walk {before : List String} {pieces : List (List Char)} (hbefore : Parted before)
    (hpieces : ∀ piece ∈ pieces, '/' ∉ piece) : Parted (walk false before pieces) := by
  have hempty {before : List String} (h : Parted before) : Parted ("" :: before) :=
    List.forall_mem_cons.mpr ⟨by simp, h⟩
  fun_induction walk false before pieces with
  | case1 before => exact hbefore
  | case2 before last hdouble => exact hempty (parted_back hbefore)
  | case3 before last hdouble hdot => exact hempty hbefore
  | case4 before last hdouble hdot => exact parted_segment hbefore (hpieces last List.mem_cons_self)
  | case5 before piece rest hrest hdouble ih =>
      exact ih (parted_back hbefore) fun p hp => hpieces p (List.mem_cons_of_mem _ hp)
  | case6 before piece rest hrest hdouble hdot ih =>
      exact ih hbefore fun p hp => hpieces p (List.mem_cons_of_mem _ hp)
  | case7 before piece rest hrest hdouble hdot ih =>
      exact ih (parted_segment hbefore (hpieces piece List.mem_cons_self)) fun p hp =>
        hpieces p (List.mem_cons_of_mem _ hp)

theorem walk_ne_nil {file : Bool} {before : List String} {pieces : List (List Char)} (h : pieces ≠ []) :
    walk file before pieces ≠ [] := by
  fun_induction walk file before pieces with
  | case1 => exact absurd rfl h
  | case2 => exact List.cons_ne_nil _ _
  | case3 => exact List.cons_ne_nil _ _
  | case4 => exact List.cons_ne_nil _ _
  | case5 before piece rest hrest hdouble ih => exact ih hrest
  | case6 before piece rest hrest hdouble hdot ih => exact ih hrest
  | case7 before piece rest hrest hdouble hdot ih => exact ih hrest

/-! ### URLs that were read -/

/-- A URL below which there is a place for every path: it has an authority and segments. -/
structure IsBase (u : Url) (a : Authority) (segments : List String) : Prop where
  scheme : u.scheme = "http" ∨ u.scheme = "https"
  place : u.place = .divided (some a) segments
  nonempty : segments ≠ []
  parted : Parted segments

variable {scheme : String}

theorem not_file (h : scheme = "http" ∨ scheme = "https") : scheme ≠ "file" := by
  rcases h with rfl | rfl <;> decide

theorem special (h : scheme = "http" ∨ scheme = "https") : isSpecial scheme = true := by
  rcases h with rfl | rfl <;> decide

theorem below_eq (h : scheme = "http" ∨ scheme = "https") (base : List String) (path : List Char) :
    below scheme base path = (walk false base.reverse (Cut.pieces (isBreak true) path)).reverse := by
  simp only [below, not_file h, special h, decide_false, if_false]

theorem slash_notMem_pieces {path piece : List Char} (h : piece ∈ Cut.pieces (isBreak true) path) : '/' ∉ piece := by
  intro hslash
  have hmem : '/' ∈ (Cut.pieces (isBreak true) path).flatten := List.mem_flatten.mpr ⟨piece, h, hslash⟩
  rw [Cut.flatten_pieces] at hmem
  exact absurd (List.mem_filter.mp hmem).2 (by decide)

theorem below_parted (h : scheme = "http" ∨ scheme = "https") (path : List Char) :
    below scheme [] path ≠ [] ∧ Parted (below scheme [] path) := by
  rw [below_eq h]
  have hnone : Parted [] := fun _ hs => nomatch hs
  refine ⟨fun hnil => walk_ne_nil (Cut.pieces_ne_nil _ _) (List.reverse_eq_nil_iff.mp hnil), fun s hs => ?_⟩
  exact parted_walk hnone (fun _ => slash_notMem_pieces) s (List.mem_reverse.mp hs)

theorem rooted_parted (h : scheme = "http" ∨ scheme = "https") (path : List Char) :
    rooted scheme path ≠ [] ∧ Parted (rooted scheme path) := by
  cases path with
  | nil =>
      rw [rooted, if_pos (special h)]
      exact ⟨List.cons_ne_nil _ _, List.forall_mem_singleton.mpr (by simp)⟩
  | cons c rest => exact below_parted h _

section

variable [Idna] {text : List Char} {place : Place}

/-- A place below an authority with a host, and the segments of a path. -/
theorem divided_of_authorityAndPath (h : scheme = "http" ∨ scheme = "https")
    (hplace : authorityAndPath scheme text = .ok place) :
    ∃ a segments, place = .divided (some a) segments ∧ a.host ≠ .empty ∧ segments ≠ [] ∧ Parted segments := by
  simp only [authorityAndPath] at hplace
  cases hfound : authority scheme (text.span fun c => !isBreak (isSpecial scheme) c).1
      ((text.span fun c => !isBreak (isSpecial scheme) c).2 ≠ []) with
  | error fault =>
      rw [hfound] at hplace
      cases hplace
  | ok found =>
      rw [hfound] at hplace
      cases hplace
      exact ⟨_, _, rfl, host_ne_empty_of_authority (special h) hfound, rooted_parted h _⟩

/-- Where a URL with one of the two schemes has its authority from. -/
theorem authorityAndPath_of_read {text : String} {u : Url} (h : read text = .ok u)
    (hscheme : u.scheme = "http" ∨ u.scheme = "https") : ∃ rest, authorityAndPath u.scheme rest = .ok u.place := by
  simp only [read, resolve] at h
  split at h
  · rename_i scheme rest _ _
    cases hplace : absolute scheme rest with
    | error fault =>
        rw [hplace] at h
        cases h
    | ok place =>
        rw [hplace] at h
        cases h
        have hscheme : scheme = "http" ∨ scheme = "https" := hscheme
        unfold absolute at hplace
        rw [if_neg (not_file hscheme), if_pos (special hscheme)] at hplace
        exact ⟨_, hplace⟩
  · rename_i heq
    cases heq
  · rename_i heq
    cases heq
  · cases h

theorem isBase_of_read {text : String} {u : Url} (h : read text = .ok u)
    (hscheme : u.scheme = "http" ∨ u.scheme = "https") : ∃ a segments, IsBase u a segments := by
  obtain ⟨rest, hplace⟩ := authorityAndPath_of_read h hscheme
  obtain ⟨a, segments, hparts, -, hnonempty, hparted⟩ := divided_of_authorityAndPath hscheme hplace
  exact ⟨a, segments, hscheme, hparts, hnonempty, hparted⟩

/-- A URL with one of the two schemes has a host. -/
theorem host_ne_empty_of_read {text : String} {u : Url} (h : read text = .ok u)
    (hscheme : u.scheme = "http" ∨ u.scheme = "https") {a : Authority} (ha : u.authority? = some a) :
    a.host ≠ .empty := by
  obtain ⟨rest, hplace⟩ := authorityAndPath_of_read h hscheme
  obtain ⟨b, segments, hparts, hhost, -⟩ := divided_of_authorityAndPath hscheme hplace
  rw [authority?, hparts] at ha
  obtain rfl := Option.some.inj ha
  exact hhost

end

/-! ### Directories -/

variable {u : Url} {a : Authority} {segments : List String}

/-- The segments of a directory without the empty last one. -/
def openSegments (segments : List String) : List String := (closed segments).dropLast

theorem closed_eq (segments : List String) : closed segments = openSegments segments ++ [""] := by
  rw [openSegments, closed]
  split
  · rename_i hlast
    obtain ⟨front, rfl⟩ := List.getLast?_eq_some_iff.mp hlast
    rw [List.dropLast_concat]
  · rw [List.dropLast_concat]

theorem IsBase.directory (h : IsBase u a segments) : IsBase u.directory a (closed segments) where
  scheme := h.scheme
  place := by rw [Url.directory, h.place]
  nonempty := by
    rw [closed_eq]
    exact List.append_ne_nil_of_right_ne_nil _ (List.cons_ne_nil _ _)
  parted := by
    intro s hs
    rw [closed] at hs
    split at hs
    · exact h.parted s hs
    · rcases List.mem_append.mp hs with hs | hs
      · exact h.parted s hs
      · rw [List.mem_singleton.mp hs]
        simp

theorem IsBase.authority?_eq (h : IsBase u a segments) : u.authority? = some a := by
  rw [authority?, h.place]

theorem IsBase.directory_directory (h : IsBase u a segments) : u.directory.directory = u.directory := by
  obtain ⟨scheme, place, query, fragment⟩ := u
  obtain rfl : place = _ := h.place
  exact Url.directory_directory scheme (some a) segments query fragment

/-- A path with one slash at its end. -/
def slashed (path : String) : String := if path.toList.getLast? = some '/' then path else path ++ "/"

theorem segmentsText_append (front back : List String) :
    segmentsText (front ++ back) = segmentsText front ++ segmentsText back := by
  rw [segmentsText, List.map_append, String.join_append]
  rfl

theorem segmentsText_eq {segments : List String} (hne : segments ≠ []) :
    segmentsText segments = "/" ++ String.intercalate "/" segments := by
  induction segments with
  | nil => exact absurd rfl hne
  | cons s rest ih =>
      rw [segmentsText, List.map_cons, String.join_cons, ← segmentsText]
      cases rest with
      | nil =>
          rw [String.intercalate_singleton]
          exact String.append_empty
      | cons next rest =>
          rw [ih (List.cons_ne_nil _ _), String.intercalate_cons_cons]
          simp only [String.append_assoc]

theorem getLast?_segmentsText {front : List String} {last : String} (h : '/' ∉ last.toList) :
    (segmentsText (front ++ [last])).toList.getLast? = some '/' ↔ last = "" := by
  have htext : (segmentsText (front ++ [last])).toList = (segmentsText front).toList ++ '/' :: last.toList := by
    rw [segmentsText_append, String.toList_append]
    simp [segmentsText]
  rw [htext]
  cases hchars : last.toList with
  | nil => simp [String.toList_eq_nil_iff.mp hchars]
  | cons c rest =>
      have hne : last ≠ "" := by
        rintro rfl
        cases hchars
      rw [hchars] at h
      have hmem := List.getLast_mem (List.cons_ne_nil c rest)
      rw [List.getLast?_append_of_ne_nil _ (List.cons_ne_nil _ _), List.getLast?_cons_cons,
        List.getLast?_eq_some_getLast (List.cons_ne_nil c rest), Option.some.injEq]
      exact iff_of_false (fun heq => h (heq ▸ hmem)) hne

/-- The path of a directory is that of the URL with a slash at its end. -/
theorem IsBase.path_directory (h : IsBase u a segments) : u.directory.path = slashed u.path := by
  have hpath : u.path = segmentsText segments := by rw [path, h.place, Place.path]
  have hdirectory : u.directory.path = segmentsText (closed segments) := by rw [path, h.directory.place, Place.path]
  obtain ⟨front, last, rfl⟩ : ∃ front last, segments = front ++ [last] :=
    ⟨_, _, (List.dropLast_concat_getLast h.nonempty).symm⟩
  have hlast : '/' ∉ last.toList := h.parted last (by simp)
  rw [hpath, hdirectory, slashed, closed]
  simp only [getLast?_segmentsText hlast, List.getLast?_concat, Option.some.injEq]
  split
  · rfl
  · rw [segmentsText_append]
    rfl

/-! ### Plain segments -/

/-- A character that stands for itself everywhere in a path. -/
def isPlain (c : Char) : Bool := c.isAlphanum || c == '_'

def Plain (segments : List String) : Prop := ∀ s ∈ segments, s ≠ "" ∧ ∀ c ∈ s.toList, isPlain c = true

theorem ne_of_isPlain {c d : Char} (h : isPlain c = true) (hd : isPlain d = false) : c ≠ d := by
  rintro rfl
  rw [h] at hd
  cases hd

theorem toNat_of_isPlain {c : Char} (h : isPlain c = true) : 0x20 < c.toNat ∧ c.toNat < 0x7f := by
  have hranges : isPlain c = ((decide (65 ≤ c.val ∧ c.val ≤ 90) || (97 ≤ c.val && c.val ≤ 122)) ||
      (48 ≤ c.val && c.val ≤ 57) || c == '_') := rfl
  rw [hranges] at h
  simp only [Bool.or_eq_true, Bool.and_eq_true, decide_eq_true_eq, UInt32.le_iff_toNat_le, beq_iff_eq] at h
  change (((65 ≤ c.toNat ∧ c.toNat ≤ 90) ∨ (97 ≤ c.toNat ∧ c.toNat ≤ 122)) ∨ (48 ≤ c.toNat ∧ c.toNat ≤ 57)) ∨
    c = '_' at h
  rcases h with ((h | h) | h) | rfl
  · omega
  · omega
  · omega
  · decide

theorem safe_of_isPlain {c : Char} (h : isPlain c = true) : c.toNat < 0x80 ∧ Percent.inPath c = false := by
  have hne (d : Char) (hd : isPlain d = false) : c ≠ d := ne_of_isPlain h hd
  obtain ⟨hlow, hhigh⟩ := toNat_of_isPlain h
  refine ⟨by omega, ?_⟩
  have hcontrol : Percent.inControls c = false := by
    simp only [Percent.inControls, Bool.or_eq_false_iff, decide_eq_false_iff_not, beq_eq_false_iff_ne]
    omega
  simp [Percent.inPath, Percent.inFragment, hcontrol, hne ' ' rfl, hne '"' rfl, hne '<' rfl, hne '>' rfl,
    hne '\x60' rfl, hne '#' rfl, hne '?' rfl, hne '\x7b' rfl, hne '\x7d' rfl]

theorem segment_of_plain {before : List String} {s : String} (h : ∀ c ∈ s.toList, isPlain c = true) :
    segment false before s.toList = s := by
  rw [segment, Percent.encode_of_safe fun c hc => safe_of_isPlain (h c hc), String.ofList_toList]
  rfl

/-- Plain segments are none of some texts with other characters. -/
theorem contains_eq_false {s : String} (h : ∀ c ∈ s.toList, isPlain c = true) {texts : List String}
    (htexts : ∀ t ∈ texts, t.toList.all isPlain = false) : texts.contains s = false := by
  rw [← Bool.not_eq_true, List.contains_iff_mem]
  intro hmem
  have hall : s.toList.all isPlain = true := List.all_eq_true.mpr h
  rw [htexts s hmem] at hall
  cases hall

theorem isDoubleDot_of_plain {s : String} (h : ∀ c ∈ s.toList, isPlain c = true) : isDoubleDot s.toList = false := by
  rw [isDoubleDot, String.ofList_toList]
  exact contains_eq_false h (by decide)

theorem isDot_of_plain {s : String} (h : ∀ c ∈ s.toList, isPlain c = true) : isDot s.toList = false := by
  rw [isDot, String.ofList_toList]
  exact contains_eq_false h (by decide)

/-- Plain segments are walked one after the other. -/
theorem walk_of_plain {segments : List String} (h : Plain segments) (before : List String) :
    walk false before (segments.map String.toList) = segments.reverse ++ before := by
  induction segments generalizing before with
  | nil => rfl
  | cons s rest ih =>
      obtain ⟨⟨-, hs⟩, hrest⟩ := List.forall_mem_cons.mp h
      cases rest with
      | nil =>
          simp only [List.map_cons, List.map_nil, walk, isDoubleDot_of_plain hs, isDot_of_plain hs,
            segment_of_plain hs]
          rfl
      | cons next rest =>
          rw [List.map_cons, List.map_cons, walk, isDoubleDot_of_plain hs, isDot_of_plain hs, segment_of_plain hs]
          · simp only [Bool.false_eq_true, if_false]
            rw [← List.map_cons, ih hrest, List.reverse_cons (a := s), List.append_assoc]
            rfl
          · exact List.cons_ne_nil _ _

theorem not_break_of_plain {c : Char} (h : isPlain c = true) (special : Bool) : isBreak special c = false := by
  simp [isBreak, ne_of_isPlain h (d := '/') rfl, ne_of_isPlain h (d := '\\') rfl]

theorem pieces_intercalate {segments : List String} (h : Plain segments) (hne : segments ≠ []) :
    Cut.pieces (isBreak true) (String.intercalate "/" segments).toList = segments.map String.toList := by
  induction segments with
  | nil => exact absurd rfl hne
  | cons s rest ih =>
      obtain ⟨⟨-, hs⟩, hrest⟩ := List.forall_mem_cons.mp h
      have hbreak : ∀ c ∈ s.toList, isBreak true c = false := fun c hc => not_break_of_plain (hs c hc) true
      cases rest with
      | nil =>
          rw [String.intercalate_singleton]
          exact Cut.pieces_of_none hbreak
      | cons next rest =>
          have htext : (String.intercalate "/" (s :: next :: rest)).toList =
              s.toList ++ '/' :: (String.intercalate "/" (next :: rest)).toList := by
            rw [String.intercalate_cons_cons, String.toList_append, String.toList_append, List.append_assoc]
            rfl
          rw [htext, Cut.pieces_append _ hbreak (by decide), ih hrest (List.cons_ne_nil _ _)]
          rfl

theorem char_of_mem_intercalate {segments : List String} (h : Plain segments) {c : Char}
    (hc : c ∈ (String.intercalate "/" segments).toList) : isPlain c = true ∨ c = '/' := by
  induction segments with
  | nil => cases hc
  | cons s rest ih =>
      obtain ⟨⟨-, hs⟩, hrest⟩ := List.forall_mem_cons.mp h
      cases rest with
      | nil =>
          rw [String.intercalate_singleton] at hc
          exact .inl (hs c hc)
      | cons next rest =>
          rw [String.intercalate_cons_cons, String.toList_append, String.toList_append, List.mem_append,
            List.mem_append] at hc
          rcases hc with (hc | hc) | hc
          · exact .inl (hs c hc)
          · exact .inr (List.mem_singleton.mp hc)
          · exact ih hrest hc

theorem tidy_eq_self {text : List Char} (h : ∀ c ∈ text, 0x20 < c.toNat) : tidy text = text := by
  have hedge {l : List Char} (hl : ∀ c ∈ l, 0x20 < c.toNat) : l.dropWhile (fun c => decide (c.toNat ≤ 0x20)) = l := by
    cases l with
    | nil => rfl
    | cons c rest =>
        have hc := hl c List.mem_cons_self
        exact List.dropWhile_cons_of_neg (by simpa using hc)
  have hreverse : ∀ c ∈ text.reverse, 0x20 < c.toNat := fun c hc => h c (List.mem_reverse.mp hc)
  simp only [tidy]
  rw [hedge h, hedge hreverse, List.reverse_reverse, List.filter_eq_self]
  intro c hc
  have hlow := h c hc
  have hne (d : Char) (hd : d.toNat ≤ 0x20) : c ≠ d := by
    rintro rfl
    omega
  simp [hne '\t' (by decide), hne '\n' (by decide), hne '\r' (by decide)]

theorem scheme?_eq_none {text : List Char} (h : ':' ∉ text) : scheme? text = none := by
  cases text with
  | nil => rfl
  | cons c rest =>
      rw [scheme?]
      split
      · split
        · rename_i scheme more hspan
          have hmem : ':' ∈ (c :: rest).dropWhile isSchemeChar := by
            rw [List.span_eq_takeWhile_dropWhile] at hspan
            rw [(Prod.mk.inj hspan).2]
            exact List.mem_cons_self
          exact absurd ((List.dropWhile_sublist _).subset hmem) h
        · rfl
      · rfl

section

variable {more : List String}

theorem ofText_plain (hmore : Plain more) :
    Reference.ofText (String.intercalate "/" more) = ⟨(String.intercalate "/" more).toList, none, none⟩ := by
  have hnone (d : Char) (hd : isPlain d = false) (hslash : d ≠ '/') :
      ∀ c ∈ (String.intercalate "/" more).toList, (c == d) = false := by
    intro c hc
    rw [beq_eq_false_iff_ne]
    rcases char_of_mem_intercalate hmore hc with hc | rfl
    · exact ne_of_isPlain hc hd
    · exact hslash.symm
  have htidy : tidy (String.intercalate "/" more).toList = (String.intercalate "/" more).toList := by
    refine tidy_eq_self fun c hc => ?_
    rcases char_of_mem_intercalate hmore hc with hc | rfl
    · exact (toNat_of_isPlain hc).1
    · decide
  simp only [Reference.ofText, htidy, Cut.first_of_none (hnone '#' rfl (by decide)),
    Cut.first_of_none (hnone '?' rfl (by decide))]

theorem scheme?_plain (hmore : Plain more) : scheme? (String.intercalate "/" more).toList = none := by
  refine scheme?_eq_none fun hc => ?_
  rcases char_of_mem_intercalate hmore hc with hc | hc
  · cases hc
  · cases hc

/-- A path of plain segments begins with a plain character. -/
theorem intercalate_eq_cons (hmore : Plain more) (hne : more ≠ []) :
    ∃ c rest, (String.intercalate "/" more).toList = c :: rest ∧ isPlain c = true := by
  obtain ⟨s, others, rfl⟩ := List.exists_cons_of_ne_nil hne
  obtain ⟨⟨hs, hchars⟩, -⟩ := List.forall_mem_cons.mp hmore
  obtain ⟨c, rest, hcons⟩ := List.exists_cons_of_ne_nil fun hnil => hs (String.toList_eq_nil_iff.mp hnil)
  have hc : isPlain c = true := hchars c (hcons ▸ List.mem_cons_self)
  cases others with
  | nil => exact ⟨c, rest, by rw [String.intercalate_singleton, hcons], hc⟩
  | cons next others =>
      refine ⟨c, rest ++ ("/" ++ String.intercalate "/" (next :: others)).toList, ?_, hc⟩
      rw [String.intercalate_cons_cons, String.append_assoc, String.toList_append, hcons, List.cons_append]

theorem relative_plain [Idna] (a : Option Authority) (segments : List String) (hmore : Plain more) (hne : more ≠ []) :
    relative scheme a segments (String.intercalate "/" more).toList =
      .ok (.divided a (below scheme segments.dropLast (String.intercalate "/" more).toList)) := by
  obtain ⟨c, rest, hcons, hc⟩ := intercalate_eq_cons hmore hne
  have hslashes : (String.intercalate "/" more).toList.span (isBreak (isSpecial scheme)) =
      ([], (String.intercalate "/" more).toList) := by
    have hbreak := not_break_of_plain hc (isSpecial scheme)
    rw [List.span_eq_takeWhile_dropWhile, hcons, List.takeWhile_cons_of_neg (by simp [hbreak]),
      List.dropWhile_cons_of_neg (by simp [hbreak])]
  rw [relative, hslashes]

/-- A path of plain segments leads where any reader of references finds it to lead. -/
theorem join_eq_descend [Idna] (u : Url) (hmore : Plain more) (hne : more ≠ []) :
    u.join (String.intercalate "/" more) = u.descend (String.intercalate "/" more) := by
  obtain ⟨c, rest, hcons, -⟩ := intercalate_eq_cons hmore hne
  have hmain : (String.intercalate "/" more).toList ≠ [] := hcons ▸ List.cons_ne_nil c rest
  obtain ⟨scheme, place, query, fragment⟩ := u
  simp only [Url.join, resolve, ofText_plain hmore, scheme?_plain hmore, Reference.relativeTo, descend]
  cases place with
  | undivided path =>
      dsimp only
      rw [if_neg fun h => hmain h.1]
  | divided authority segments =>
      dsimp only
      rw [if_neg hmain, relative_plain authority segments hmore hne]
      rfl

/-- A path of plain segments leads from a directory to what is below it. -/
theorem IsBase.descend (h : IsBase u a segments) (hmore : Plain more) (hne : more ≠ []) :
    u.directory.descend (String.intercalate "/" more) =
      .ok ⟨u.scheme, .divided (some a) (openSegments segments ++ more), none, none⟩ := by
  rw [Url.descend, h.directory.place]
  dsimp only
  rw [below_eq h.directory.scheme, pieces_intercalate hmore hne, walk_of_plain hmore, ← openSegments,
    List.reverse_append, List.reverse_reverse, List.reverse_reverse]
  rfl

end

end ChainHead.Url
