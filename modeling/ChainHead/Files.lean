/-! A folder of files, and reading a file by its path. A path is walked name by name from the folder on; a dot
stays and two dots go back. What lies outside of the folder is not there. -/

namespace ChainHead.Files

inductive Fault where
  | notFound
  | isFolder
  | notFolder
  | nameTooLong
  | zeroByte
  | notText
  | other (text : String)
deriving DecidableEq, Repr

def Fault.message : Fault → String
  | .notFound => "No such file or directory (os error 2)"
  | .isFolder => "Is a directory (os error 21)"
  | .notFolder => "Not a directory (os error 20)"
  | .nameTooLong => "File name too long (os error 36)"
  | .zeroByte => "file name contained an unexpected NUL byte"
  | .notText => "stream did not contain valid UTF-8"
  | .other text => text

inductive Entry where
  | folder
  | file (content : List UInt8)
deriving DecidableEq, Repr

/-- A folder, given by entries at places below it. A place has the names on the way to it. -/
abbrev Folder := List (List String × Entry)

/-- What is at a place. Every place on the way to an entry is a folder. -/
def entry? (folder : Folder) (place : List String) : Option Entry :=
  if place = [] then some .folder
  else
    match folder.find? (·.1 = place) with
    | some (_, entry) => some entry
    | none => if folder.any (place.isPrefixOf ·.1) then some .folder else none

def walk (folder : Folder) (place : List String) : List String → Except Fault (List String)
  | [] => .ok place
  | name :: rest =>
    match entry? folder place with
    | none => .error .notFound
    | some (.file _) => .error .notFolder
    | some .folder =>
      if name = "" ∨ name = "." then walk folder place rest
      else if name = ".." then
        if place = [] then .error .notFound else walk folder place.dropLast rest
      else if 255 < name.utf8ByteSize then .error .nameTooLong
      else walk folder (place ++ [name]) rest

def read (folder : Folder) (path : String) : Except Fault (List UInt8) := do
  let names := path.splitOn "/"
  if path.contains '\x00' then throw .zeroByte
  if path = "" then throw .notFound
  if 4096 ≤ path.utf8ByteSize then throw .nameTooLong
  if path.startsWith "/" ∧ names.any (· ≠ "") then throw .notFound
  let place ← walk folder [] names
  match entry? folder place with
  | none => throw .notFound
  | some .folder => throw .isFolder
  | some (.file content) => return content

end ChainHead.Files
