import ChainHead.Http.Message
import ChainHead.Proofs.Beacon.Endpoints
import ChainHead.Proofs.Http.Targets

/-! The targets of the resources of a node. What the URL of a resource has behind the path of its base is harmless in a
target, so whether the resource can be asked for is up to the base, as long as the URL does not get too long. It is the
same with the credentials of the base and without them. -/

namespace ChainHead

namespace Url

variable {u : Url} {a : Authority} {segments : List String}

/-- The text of a URL with an authority. -/
theorem text_of_authority? (ha : u.authority? = some a) :
    u.text = Endpoint.front u a ++ u.path ++ marked "?" u.query ++ marked "#" u.fragment := by
  obtain ⟨scheme, place, query, fragment⟩ := u
  cases place with
  | undivided path => cases ha
  | divided authority segments =>
      obtain rfl : authority = some a := ha
      rw [text, path, Endpoint.front]
      simp only [Place.text, Place.path, ← String.toList_inj, String.toList_append, List.append_assoc]
      rfl

/-- The characters of such a text, as a target is read. -/
theorem toList_text_of_authority? (ha : u.authority? = some a) :
    u.text.toList = u.scheme.toList ++ ':' :: '/' :: '/' ::
      ((a.credentials ++ a.target ++ u.path).toList ++ (marked "?" u.query ++ marked "#" u.fragment).toList) := by
  rw [text_of_authority? ha, Endpoint.front]
  simp only [String.toList_append, List.append_assoc]
  rfl

/-- Without its credentials a base is one all the same. -/
theorem IsBase.bareUrl (h : IsBase u a segments) :
    IsBase (Http.bareUrl u) { a with user := "", password := none } segments where
  scheme := h.scheme
  place := by rw [Http.bareUrl, h.place]
  nonempty := h.nonempty
  parted := h.parted

theorem IsBase.slash_mem_path (h : IsBase u a segments) : '/' ∈ u.path.toList := by
  rw [path, h.place, Place.path, segmentsText_eq h.nonempty, String.toList_append]
  exact List.mem_append_left _ (List.mem_singleton_self '/')

end Url

theorem Http.Target.isHarmless_of_isPlain {c : Char} (h : Url.isPlain c = true) : isHarmless c = true := by
  have hne (d : Char) (hd : Url.isPlain d = false) : c.toNat ≠ d.toNat :=
    fun heq => Url.ne_of_isPlain h hd (Char.toNat_inj.mp heq)
  obtain ⟨hlow, hhigh⟩ := Url.toNat_of_isPlain h
  have hhash : c.toNat ≠ 0x23 := hne '#' rfl
  have hless : c.toNat ≠ 0x3c := hne '<' rfl
  have hgreater : c.toNat ≠ 0x3e := hne '>' rfl
  have hmark : c.toNat ≠ 0x3f := hne '?' rfl
  have htick : c.toNat ≠ 0x60 := hne '\x60' rfl
  have hquote : c.toNat ≠ 0x22 := hne '"' rfl
  have hpath (query : Bool) : isPathChar query c = true := by
    simp only [isPathChar, Bool.or_eq_true, Bool.and_eq_true, decide_eq_true_eq, beq_iff_eq]
    omega
  simp [isHarmless, hpath, Url.ne_of_isPlain h (d := '#') rfl]

namespace Endpoint

variable {base : Url} {a : Url.Authority} {segments : List String} {e : Endpoint} {u : Url}

/-- What the URL of a resource has behind the path of its base. -/
theorem exists_behind (base : Url) (e : Endpoint) :
    ∃ slash : String, Url.slashed base.path = base.path ++ slash ∧
      ∀ c ∈ (slash ++ e.documented ++ Url.marked "?" e.query?).toList, Http.Target.isHarmless c = true := by
  have hdocumented : ∀ c ∈ e.documented.toList, Http.Target.isHarmless c = true := by
    intro c hc
    rw [← reference_eq] at hc
    rcases Url.char_of_mem_intercalate e.plain_segments hc with hc | rfl
    · exact Http.Target.isHarmless_of_isPlain hc
    · decide
  have hquery : ∀ c ∈ (Url.marked "?" e.query?).toList, Http.Target.isHarmless c = true := by
    cases e with
    | validators slot =>
        have hall : (Url.marked "?" (some "status=active%2Cpending")).toList.all Http.Target.isHarmless = true := by
          decide +kernel
        exact List.all_eq_true.mp hall
    | headEvents => exact List.all_eq_true.mp (by decide +kernel)
    | _ => exact List.forall_mem_nil _
  have hbehind (slash : String) (hslash : ∀ c ∈ slash.toList, Http.Target.isHarmless c = true) :
      ∀ c ∈ (slash ++ e.documented ++ Url.marked "?" e.query?).toList, Http.Target.isHarmless c = true := by
    rw [String.toList_append, String.toList_append]
    exact List.forall_mem_append.mpr ⟨List.forall_mem_append.mpr ⟨hslash, hdocumented⟩, hquery⟩
  rw [Url.slashed]
  split_ifs
  · exact ⟨"", String.append_empty.symm, hbehind "" (List.forall_mem_nil _)⟩
  · exact ⟨"/", rfl, hbehind "/" (List.all_eq_true.mp (by decide +kernel))⟩

/-- If a base URL is a target, so is the URL of every resource below it that is not too long. -/
theorem isOk_ofUrl (h : Url.IsBase base a segments) (hu : e.url base = .ok u) (hsize : u.text.utf8ByteSize ≤ 65534)
    (hok : (Http.Target.ofUrl base).isOk = true) : (Http.Target.ofUrl u).isOk = true := by
  obtain ⟨slash, hslashed, hharmless⟩ := exists_behind base e
  have hslash : '/' ∈ (a.credentials ++ a.target ++ base.path).toList := by
    rw [String.toList_append]
    exact List.mem_append_right _ h.slash_mem_path
  have hbehind : u.text.toList = base.scheme.toList ++ ':' :: '/' :: '/' ::
      ((a.credentials ++ a.target ++ base.path).toList ++
        (slash ++ e.documented ++ Url.marked "?" e.query?).toList) := by
    rw [text_url h hu, hslashed, front]
    simp only [String.toList_append, List.append_assoc]
    rfl
  exact Http.Target.isOk_read_of_isHarmless h.scheme hslash (Url.toList_text_of_authority? h.authority?_eq) hbehind
    hharmless hsize hok

theorem url_bareUrl (h : Url.IsBase base a segments) (hu : e.url base = .ok u) :
    e.url (Http.bareUrl base) = .ok (Http.bareUrl u) := by
  rw [url_eq h] at hu
  rw [url_eq h.bareUrl, ← Except.ok.inj hu]
  rfl

end Endpoint

end ChainHead
