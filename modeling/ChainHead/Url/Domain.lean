import ChainHead.Text.Cut

/-! Domains in ASCII. A domain of ASCII characters becomes lower case and keeps its characters, of which some are
forbidden. An international domain has other characters, or a label that stands for such. What becomes of it is for
tables of all characters to say, and these are given from outside. -/

namespace ChainHead.Url

/-- International domains: the ASCII form of each of them that is valid. -/
class Idna where
  ascii? : List Char → Option (List Char)

namespace Idna

/-- Nothing is known of international domains. -/
scoped instance unknown : Idna := ⟨fun _ => none⟩

end Idna

namespace Domain

def isForbidden (c : Char) : Bool :=
  c.toNat ≤ 0x20 || c.toNat == 0x7f ||
    ['%', '#', '/', ':', '<', '>', '?', '@', '[', '\\', ']', '^', '|'].contains c

/-- Whether a label stands for one with characters outside ASCII. -/
def isEncoded (label : List Char) : Bool := "xn--".toList.isPrefixOf (label.map Char.toLower)

def isInternational (text : List Char) : Bool :=
  text.any (0x80 ≤ ·.toNat) || (Cut.pieces (· == '.') text).any isEncoded

def ascii? [Idna] (text : List Char) : Option (List Char) :=
  if isInternational text then Idna.ascii? text
  else if text.any isForbidden then none
  else some (text.map Char.toLower)

end Domain

end ChainHead.Url
