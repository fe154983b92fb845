import ChainHead.Url.Reference
import Mathlib.Data.String.Basic

/-! The hosts of URLs that were read. Under a special scheme a host is an address or a domain, and a domain has at least
one character: an empty one is refused where it is written down, and where nothing is left of it in ASCII. -/

namespace ChainHead.Url

namespace Host

variable {text : List Char} {host : Host}

theorem ne_empty_of_readIpv4 (h : readIpv4 text = some host) : host ≠ .empty := by
  obtain ⟨parts, -, hparts⟩ := Option.bind_eq_some_iff.mp h
  obtain ⟨address, -, haddress⟩ := Option.bind_eq_some_iff.mp hparts
  obtain rfl := Option.some.inj haddress
  nofun

theorem ne_empty_of_readIpv6 (h : readIpv6 text = some host) : host ≠ .empty := by
  obtain ⟨groups, -, hgroups⟩ := Option.bind_eq_some_iff.mp h
  dsimp only at hgroups
  split at hgroups
  · obtain rfl := Option.some.inj hgroups
    nofun
  · cases hgroups

theorem ne_empty_of_readBracketed (h : readBracketed text = .ok host) : host ≠ .empty := by
  unfold readBracketed at h
  split at h
  · rename_i found _ hread
    obtain rfl : found = host := Except.ok.inj h
    exact ne_empty_of_readIpv6 hread
  · cases h

theorem ne_empty_of_readSpecial [Idna] (h : readSpecial text = .ok host) : host ≠ .empty := by
  unfold readSpecial at h
  split at h
  · exact ne_empty_of_readBracketed h
  · split at h
    · cases h
    · cases h
    · rename_i domain hnonempty _
      split at h
      · split at h
        · rename_i found hread
          obtain rfl : found = host := Except.ok.inj h
          exact ne_empty_of_readIpv4 hread
        · cases h
      · cases h
        intro hempty
        exact hnonempty (String.ofList_eq.mp (Host.name.inj hempty))

end Host

/-- An authority takes its host as it is read. -/
theorem host_ne_empty_of_bind [Idna] {text rest : List Char} {a : Authority}
    {behind : Host → Except Fault (Authority × List Char)}
    (h : (Host.readSpecial text >>= behind) = .ok (a, rest))
    (hbehind : ∀ host found, behind host = .ok found → found.1.host = host) : a.host ≠ .empty := by
  cases hread : Host.readSpecial text with
  | error fault =>
      rw [hread] at h
      cases h
  | ok host =>
      rw [hread] at h
      have hhost : a.host = host := hbehind host _ h
      rw [hhost]
      exact Host.ne_empty_of_readSpecial hread

theorem host_ne_empty_of_authority [Idna] {scheme : String} (hspecial : isSpecial scheme = true) {text rest : List Char}
    {more : Bool} {a : Authority} (h : authority scheme text more = .ok (a, rest)) : a.host ≠ .empty := by
  simp only [authority, hspecial, if_true] at h
  split at h
  · cases h
  · split at h
    · cases h
    · refine host_ne_empty_of_bind h fun host found hfound => ?_
      generalize port scheme _ = number at hfound
      cases number with
      | error fault => cases hfound
      | ok number =>
          cases hfound
          rfl

end ChainHead.Url
