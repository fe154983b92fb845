import ChainHead.Beacon.Records

/-! Names of blocks. A block is named by one of three words, by its slot in decimal, or by its root in
hexadecimal behind the mark `0x`, which alone decides between the last two. -/

namespace ChainHead

inductive BlockId where
  | head
  | genesis
  | finalized
  | slot (number : UInt64)
  | root (hash : Hash)
deriving DecidableEq

namespace BlockId

inductive Fault where
  | badRoot (text : String) (fault : Hex.Fault)
  | badSlot (text : String) (fault : Numeral.Fault)
deriving DecidableEq, Repr

def Fault.message : Fault → String
  | .badRoot text fault => "invalid block root '" ++ text ++ "': " ++ fault.message
  | .badSlot text fault => "invalid block id '" ++ text ++ "': " ++ fault.message

def text : BlockId → String
  | .head => "head"
  | .genesis => "genesis"
  | .finalized => "finalized"
  | .slot number => Numeral.text number.toNat
  | .root hash => String.ofList (Hex.encode hash.toList)

/-- Reads a root, whose mark has been seen. -/
def readRoot (t : String) : Except Fault BlockId :=
  match Hex.decodeSized 32 t with
  | .error fault => .error (.badRoot t fault)
  | .ok bytes =>
    match Wire.exactly 32 bytes with
    | some hash => .ok (.root hash)
    | none => .error (.badRoot t .wrongLength)

def read (t : String) : Except Fault BlockId :=
  if t = "head" then .ok .head
  else if t = "genesis" then .ok .genesis
  else if t = "finalized" then .ok .finalized
  else
    match t.toList with
    | '0' :: 'x' :: _ => readRoot t
    | chars =>
      match Numeral.read chars with
      | .ok number => .ok (.slot number)
      | .error fault => .error (.badSlot t fault)

end BlockId

end ChainHead
