/-! White space in the sense of the Unicode property White_Space, and removing it from both ends of
a text. `trim_eq_self` says which texts have nothing to remove. -/

namespace ChainHead.Blank

def isBlank (c : Char) : Bool :=
  (0x9 ≤ c.val && c.val ≤ 0xd) || c.val == 0x20 || c.val == 0x85 || c.val == 0xa0 ||
  c.val == 0x1680 || (0x2000 ≤ c.val && c.val ≤ 0x200a) || c.val == 0x2028 || c.val == 0x2029 ||
  c.val == 0x202f || c.val == 0x205f || c.val == 0x3000

theorem isBlank_of_isWhitespace {c : Char} (h : c.isWhitespace) : isBlank c := by
  simp only [Char.isWhitespace, Bool.or_eq_true, decide_eq_true_eq] at h
  rcases h with ((rfl | rfl) | rfl) | rfl <;> decide

def trimEnd (text : List Char) : List Char :=
  (text.reverse.dropWhile isBlank).reverse

def trim (text : List Char) : List Char :=
  trimEnd (text.dropWhile isBlank)

theorem trimEnd_append_singleton {text : List Char} {c : Char} (h : isBlank c = false) :
    trimEnd (text ++ [c]) = text ++ [c] := by
  simp [trimEnd, h]

theorem getLast?_trimEnd {text : List Char} {c : Char} (h : (trimEnd text).getLast? = some c) :
    isBlank c = false := by
  simp only [trimEnd, List.getLast?_reverse] at h
  have := List.head?_dropWhile_not isBlank text.reverse
  rw [h] at this
  simpa using this

theorem trimEnd_eq_self {text : List Char} (h : ∀ c ∈ text.getLast?, isBlank c = false) :
    trimEnd text = text := by
  rcases List.eq_nil_or_concat text with rfl | ⟨front, c, rfl⟩
  · rfl
  · rw [List.concat_eq_append] at h ⊢
    exact trimEnd_append_singleton (h c (by simp))

/-- A text whose first and last characters are no blanks is its own trimmed form. -/
theorem trim_eq_self {c : Char} {text : List Char} (hc : isBlank c = false)
    (h : ∀ d ∈ (c :: text).getLast?, isBlank d = false) : trim (c :: text) = c :: text := by
  rw [trim, List.dropWhile_cons_of_neg (by simp [hc])]
  exact trimEnd_eq_self h

end ChainHead.Blank
