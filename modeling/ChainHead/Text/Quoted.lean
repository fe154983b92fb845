import ChainHead.Text.Unprinted

/-! Quoted text as it stands in messages: between quotes, with a backslash before a quote and a
backslash, letters for the common controls, and code points by number where the character itself
would not show. -/

namespace ChainHead.Quoted

def byNumber (c : Char) : List Char :=
  ['\\', 'u', '\x7b'] ++ Nat.toDigits 16 c.toNat ++ ['\x7d']

def escape (quote c : Char) : List Char :=
  if c = '\x00' then ['\\', '0']
  else if c = '\t' then ['\\', 't']
  else if c = '\r' then ['\\', 'r']
  else if c = '\n' then ['\\', 'n']
  else if c = '\\' || c = quote then ['\\', c]
  else if Unprinted.contains c then byNumber c
  else [c]

def text (t : String) : String :=
  String.ofList ('"' :: t.toList.flatMap (escape '"') ++ ['"'])

def character (c : Char) : String :=
  String.ofList ('\'' :: escape '\'' c ++ ['\''])

end ChainHead.Quoted
