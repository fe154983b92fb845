import ChainHead.Http.Target
import Mathlib.Data.List.TakeWhile
import Mathlib.Data.String.Basic
import Mathlib.Tactic.SplitIfs

/-! What texts of URLs come to as targets. The scheme, the authority and what stands behind it are judged apart from
each other. So the target of a URL over http has its scheme, and if a text is a target, it still is one with another
path behind its own, unless it gets too long. -/

namespace ChainHead.Http.Target

/-- What stands behind the two slashes of a text, up to the path, the query or the fragment. -/
def authorityOf (rest : List Char) : List Char := rest.takeWhile fun c => !endsAuthority c

variable {scheme text : String} {rest : List Char} {t : Target}

theorem scheme?_eq (h : scheme = "http" ∨ scheme = "https") (rest : List Char) :
    scheme? (scheme.toList ++ ':' :: '/' :: '/' :: rest) = some (scheme.toList, rest) := by
  rcases h with rfl | rfl <;> rfl

/-- A text over http is judged by its parts. -/
theorem read_eq (h : scheme = "http" ∨ scheme = "https")
    (htext : text.toList = scheme.toList ++ ':' :: '/' :: '/' :: rest) :
    read text =
      if 65534 < text.utf8ByteSize then .error .tooLong
      else do
        judgeAuthority (authorityOf rest)
        if authorityOf rest = [] then throw .badForm
        let path ← readPath (rest.drop (authorityOf rest).length)
        return ⟨some (scheme, String.ofList (authorityOf rest)), path⟩ := by
  have hparts := scheme?_eq h rest
  have hfirst : ∃ more, scheme.toList ++ ':' :: '/' :: '/' :: rest = 'h' :: 't' :: more := by
    rcases h with rfl | rfl <;> exact ⟨_, rfl⟩
  have hshort : ¬ 64 < scheme.toList.length := by
    rcases h with rfl | rfl <;> decide
  obtain ⟨more, hmore⟩ := hfirst
  have hnil : text.toList ≠ [] := by
    rw [htext, hmore]
    exact List.cons_ne_nil _ _
  have hslash : text.toList.head? ≠ some '/' := by
    rw [htext, hmore]
    simp
  have hstar : text.toList ≠ ['*'] := by
    rw [htext, hmore]
    simp
  simp only [read, if_neg hnil, if_neg hslash, if_neg hstar]
  rw [htext, hparts]
  simp only [if_neg hshort, String.ofList_toList]
  rfl

theorem read_eq_ok_iff (h : scheme = "http" ∨ scheme = "https")
    (htext : text.toList = scheme.toList ++ ':' :: '/' :: '/' :: rest) :
    read text = .ok t ↔ text.utf8ByteSize ≤ 65534 ∧ judgeAuthority (authorityOf rest) = .ok () ∧
      authorityOf rest ≠ [] ∧ ∃ path, readPath (rest.drop (authorityOf rest).length) = .ok path ∧
        t = ⟨some (scheme, String.ofList (authorityOf rest)), path⟩ := by
  rw [read_eq h htext]
  by_cases hsize : 65534 < text.utf8ByteSize
  · simp [hsize, Nat.not_le.mpr hsize]
  rw [if_neg hsize]
  cases judgeAuthority (authorityOf rest) with
  | error fault => simp [bind, Except.bind]
  | ok _ =>
      by_cases hauthority : authorityOf rest = []
      · simp [bind, Except.bind, hauthority, throw, throwThe, MonadExceptOf.throw]
      cases readPath (rest.drop (authorityOf rest).length) with
      | error fault => simp [bind, Except.bind, hauthority]
      | ok path => simp [bind, Except.bind, hauthority, pure, Except.pure, Nat.not_lt.mp hsize, eq_comm]

/-- The target of a text over http can be asked for. -/
theorem isSpoken_of_read (h : scheme = "http" ∨ scheme = "https")
    (htext : text.toList = scheme.toList ++ ':' :: '/' :: '/' :: rest) (hread : read text = .ok t) :
    t.isSpoken = true := by
  obtain ⟨-, -, -, path, -, rfl⟩ := (read_eq_ok_iff h htext).mp hread
  rcases h with rfl | rfl <;> rfl

/-! ### Longer paths -/

/-- Whether a text can go on like this behind a path, or behind a query. -/
def goesOn : Bool → List Char → Bool
  | _, [] => true
  | query, c :: rest =>
    if c = '#' then true
    else if c = '?' ∧ query = false then goesOn true rest
    else isPathChar query c && goesOn query rest

theorem goesOn_true_eq (text : List Char) :
    goesOn true text = (Cut.first (· == '#') text).1.all (isPathChar true) := by
  induction text with
  | nil => rfl
  | cons c rest ih =>
      rw [goesOn, Cut.first]
      by_cases hhash : c = '#' <;> simp [hhash, ih]

theorem isOk_readPath (text : List Char) : (readPath text).isOk = goesOn false text := by
  have hall : (readPath text).isOk =
      ((Cut.first (· == '?') (Cut.first (· == '#') text).1).1.all (isPathChar false) &&
        ((Cut.first (· == '?') (Cut.first (· == '#') text).1).2.getD []).all (isPathChar true)) := by
    simp only [readPath]
    split_ifs with hgood
    · exact hgood.symm
    · exact (Bool.eq_false_iff.mpr hgood).symm
  rw [hall]
  clear hall
  induction text with
  | nil => rfl
  | cons c rest ih =>
      rw [goesOn, Cut.first]
      by_cases hhash : c = '#'
      · simp [hhash, Cut.first]
      by_cases hmark : c = '?'
      · simp [hmark, Cut.first, goesOn_true_eq]
      · simp [hhash, hmark, Cut.first, ← ih, Bool.and_assoc]

/-- A character that may stand in a path, a question mark included, and in a query as well. -/
def isHarmless (c : Char) : Bool := c != '#' && (c == '?' || isPathChar false c) && isPathChar true c

theorem goesOn_of_isHarmless {more : List Char} (h : ∀ c ∈ more, isHarmless c = true) (query : Bool) :
    goesOn query more = true := by
  induction more generalizing query with
  | nil => rfl
  | cons c rest ih =>
      obtain ⟨hc, hrest⟩ := List.forall_mem_cons.mp h
      simp only [isHarmless, Bool.and_eq_true, bne_iff_ne, Bool.or_eq_true, beq_iff_eq] at hc
      rw [goesOn, if_neg hc.1.1]
      split_ifs with hmark
      · exact ih hrest true
      · rw [ih hrest query, Bool.and_true]
        cases query with
        | true => exact hc.2
        | false => exact hc.1.2.resolve_left fun heq => hmark ⟨heq, rfl⟩

theorem goesOn_append {front back more : List Char} {query : Bool} (h : goesOn query (front ++ back) = true)
    (hmore : ∀ c ∈ more, isHarmless c = true) : goesOn query (front ++ more) = true := by
  induction front generalizing query with
  | nil => exact goesOn_of_isHarmless hmore query
  | cons c rest ih =>
      rw [List.cons_append, goesOn] at h ⊢
      split_ifs at h ⊢ with hhash hmark
      · rfl
      · exact ih h
      · rw [Bool.and_eq_true] at h ⊢
        exact ⟨h.1, ih h.2⟩

theorem authorityOf_append {front : List Char} (hslash : '/' ∈ front) (back : List Char) :
    authorityOf (front ++ back) = authorityOf front := by
  have hpart : ¬ (front.takeWhile fun c => !endsAuthority c).length = front.length := by
    intro hlength
    rw [← (List.takeWhile_prefix _).eq_of_length hlength] at hslash
    have hkept := List.mem_takeWhile_imp hslash
    cases hkept
  rw [authorityOf, List.takeWhile_append, if_neg hpart]
  rfl

/-- If a text is a target, then so is one that goes on in another way somewhere behind its first slash. -/
theorem isOk_read_of_isHarmless (h : scheme = "http" ∨ scheme = "https") {other : String}
    {front back more : List Char} (hslash : '/' ∈ front)
    (htext : text.toList = scheme.toList ++ ':' :: '/' :: '/' :: (front ++ back))
    (hother : other.toList = scheme.toList ++ ':' :: '/' :: '/' :: (front ++ more))
    (hmore : ∀ c ∈ more, isHarmless c = true) (hsize : other.utf8ByteSize ≤ 65534) (hread : (read text).isOk = true) :
    (read other).isOk = true := by
  obtain ⟨t, ht⟩ : ∃ t, read text = .ok t := by
    cases hcase : read text with
    | error fault =>
        rw [hcase] at hread
        cases hread
    | ok t => exact ⟨t, rfl⟩
  obtain ⟨-, hjudged, hnonempty, path, hpath, -⟩ := (read_eq_ok_iff h htext).mp ht
  have hlength : (authorityOf front).length ≤ front.length := (List.takeWhile_prefix _).length_le
  rw [authorityOf_append hslash, List.drop_append_of_le_length hlength] at hpath
  rw [authorityOf_append hslash] at hjudged hnonempty
  have hgoes := isOk_readPath (front.drop (authorityOf front).length ++ back)
  rw [hpath] at hgoes
  have hstill := isOk_readPath (front.drop (authorityOf front).length ++ more)
  rw [goesOn_append hgoes.symm hmore] at hstill
  cases hlonger : readPath (front.drop (authorityOf front).length ++ more) with
  | error fault =>
      rw [hlonger] at hstill
      cases hstill
  | ok longer =>
      have hok : read other = .ok ⟨some (scheme, String.ofList (authorityOf front)), longer⟩ := by
        refine (read_eq_ok_iff h hother).mpr ?_
        rw [authorityOf_append hslash, List.drop_append_of_le_length hlength]
        exact ⟨hsize, hjudged, hnonempty, longer, hlonger, rfl⟩
      rw [hok]
      rfl

end ChainHead.Http.Target
