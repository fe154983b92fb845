import ChainHead.Json.Number
import ChainHead.Json.Skip
import ChainHead.Text.Quoted

/-! JSON values of any form, their text, and the readers that every kind of value shares: the ends and
separators of lists and records, the refusal of a value of the wrong form, and a whole text. A record
keeps its members in the order of their keys; of members with equal keys the last one counts. -/

namespace ChainHead.Json

inductive Value where
  | null
  | bool (b : Bool)
  | number (n : Number)
  | text (t : String)
  | list (items : List Value)
  | record (members : List (String × Value))

/-- Puts a member into a record, in the order of the keys, in the place of one with the same key. -/
def insertMember (key : String) (v : Value) : List (String × Value) → List (String × Value)
  | [] => [(key, v)]
  | (k, w) :: rest =>
    if key = k then (key, v) :: rest
    else if key < k then (key, v) :: (k, w) :: rest
    else (k, w) :: insertMember key v rest

def writeBool (b : Bool) : List Char :=
  if b then ['t', 'r', 'u', 'e'] else ['f', 'a', 'l', 's', 'e']

def writeNull : List Char := ['n', 'u', 'l', 'l']

mutual

/-- The text of a value, without blanks. -/
def Value.write : Value → List Char
  | .null => writeNull
  | .bool b => writeBool b
  | .number n => n.text.toList
  | .text t => writeText t.toList
  | .list items => '[' :: writeItems items ++ [']']
  | .record members => '\x7b' :: writeMembers members ++ ['\x7d']

def writeItems : List Value → List Char
  | [] => []
  | v :: rest => v.write ++ writeMoreItems rest

def writeMoreItems : List Value → List Char
  | [] => []
  | v :: rest => ',' :: v.write ++ writeMoreItems rest

def writeMembers : List (String × Value) → List Char
  | [] => []
  | (key, v) :: rest => writeText key.toList ++ ':' :: v.write ++ writeMoreMembers rest

def writeMoreMembers : List (String × Value) → List Char
  | [] => []
  | (key, v) :: rest => ',' :: writeText key.toList ++ ':' :: v.write ++ writeMoreMembers rest

end

namespace Reader

variable {α : Type}

/-- Refuses the value ahead because of its form. Lists and records stay unread. -/
def unexpected (expected : String) : Reader α := located do
  match ← peek with
  | some 0x6e => eat; word [0x75, 0x6c, 0x6c]; refuseValue (.wrongForm "null" expected)
  | some 0x74 => eat; word [0x72, 0x75, 0x65]; refuseValue (.wrongForm "boolean `true`" expected)
  | some 0x66 =>
    eat
    word [0x61, 0x6c, 0x73, 0x65]
    refuseValue (.wrongForm "boolean `false`" expected)
  | some 0x2d => do
    eat
    let n ← number false
    refuseValue (.wrongForm n.describe expected)
  | some 0x22 => do
    eat
    let t ← text
    refuseValue (.wrongForm ("string " ++ Quoted.text t) expected)
  | some 0x5b => refuseValue (.wrongForm "sequence" expected)
  | some 0x7b => refuseValue (.wrongForm "map" expected)
  | some b =>
    if 0x30 ≤ b && b ≤ 0x39 then do
      let n ← number true
      refuseValue (.wrongForm n.describe expected)
    else refuseNext .noValue
  | none => refuseNext .noValue

/-- Whether another item follows in a list; reads the comma before it. -/
def nextItem (first : Bool) : Reader Bool := do
  match ← ahead with
  | none => refuseNext .endInList
  | some b =>
    if b = 0x5d then pure false
    else if first then pure true
    else if b = 0x2c then do
      eat
      match ← ahead with
      | some 0x5d => refuseNext .trailingComma
      | some _ => pure true
      | none => refuseNext .endInValue
    else refuseNext .noListSeparator

/-- The key of the next member of a record, if one follows; reads the comma before it. -/
def nextKey (first : Bool) : Reader (Option String) := do
  match ← ahead with
  | none => refuseNext .endInRecord
  | some b =>
    if b = 0x7d then pure none
    else if first then
      if b = 0x22 then do
        eat
        some <$> text
      else refuseNext .keyNotText
    else if b = 0x2c then do
      eat
      match ← ahead with
      | some 0x22 => do
        eat
        some <$> text
      | some 0x7d => refuseNext .trailingComma
      | some _ => refuseNext .keyNotText
      | none => refuseNext .endInValue
    else refuseNext .noRecordSeparator

def colon : Reader Unit := do
  match ← ahead with
  | some 0x3a => eat
  | some _ => refuseNext .noColon
  | none => refuseNext .endInRecord

def endList : Reader Unit := do
  match ← ahead with
  | some 0x5d => eat
  | some 0x2c => do
    eat
    match ← ahead with
    | some 0x5d => refuseNext .trailingComma
    | _ => refuseNext .trailingText
  | some _ => refuseNext .trailingText
  | none => refuseNext .endInList

def endRecord : Reader Unit := do
  match ← ahead with
  | some 0x7d => eat
  | some 0x2c => refuseNext .trailingComma
  | some _ => refuseNext .trailingText
  | none => refuseNext .endInRecord

/-- One item of a list; `seen` holds the items before, last one first. -/
def itemStep (item : Reader α) (seen : List α) : Reader (List α ⊕ List α) := do
  if ← nextItem seen.isEmpty then do
    let a ← item
    pure (.inl (a :: seen))
  else pure (.inr seen.reverse)

def items (item : Reader α) : Reader (List α) := loop (itemStep item) []

def memberStep (value : Reader Value) (state : Bool × List (String × Value)) :
    Reader ((Bool × List (String × Value)) ⊕ List (String × Value)) := do
  match ← nextKey state.1 with
  | none => pure (.inr state.2)
  | some key => do
    colon
    let v ← value
    pure (.inl (false, insertMember key v state.2))

def members (value : Reader Value) : Reader (List (String × Value)) :=
  loop (memberStep value) (true, [])

/-- Reads the inside and the end of a list, at most `levels` deep. -/
def listOf (levels : Nat) (inside : Nat → Reader α) : Reader α :=
  match levels with
  | 0 => refuseNext .tooDeep
  | levels + 1 => do
    eat
    enclosed (inside levels) endList

/-- Reads the inside and the end of a record, at most `levels` deep. -/
def recordOf (levels : Nat) (inside : Nat → Reader α) : Reader α :=
  match levels with
  | 0 => refuseNext .tooDeep
  | levels + 1 => do
    eat
    enclosed (inside levels) endRecord

/-- Reads a value of any form, at most `levels` deep. -/
def value (levels : Nat) : Reader Value := located do
  match ← ahead with
  | none => refuseNext .endInValue
  | some 0x6e => eat; word [0x75, 0x6c, 0x6c]; pure .null
  | some 0x74 => eat; word [0x72, 0x75, 0x65]; pure (.bool true)
  | some 0x66 => eat; word [0x61, 0x6c, 0x73, 0x65]; pure (.bool false)
  | some 0x2d => do
    eat
    .number <$> number false
  | some 0x22 => do
    eat
    .text <$> text
  | some 0x5b =>
    match levels with
    | 0 => refuseNext .tooDeep
    | levels + 1 => do
      eat
      .list <$> enclosed (items (value levels)) endList
  | some 0x7b =>
    match levels with
    | 0 => refuseNext .tooDeep
    | levels + 1 => do
      eat
      .record <$> enclosed (members (value levels)) endRecord
  | some b =>
    if 0x30 ≤ b && b ≤ 0x39 then .number <$> number true else refuseNext .noValue

/-- How deep lists and records may be nested where values are kept. -/
def levels : Nat := 127

/-- Reads a whole text: a value, and nothing but blanks around it. -/
def whole (r : Nat → Reader α) : Reader α := do
  let a ← r levels
  match ← ahead with
  | none => pure a
  | some _ => refuseNext .trailingText

/-- The value of a text, or the refusal of it. -/
def run (r : Nat → Reader α) (bytes : List UInt8) : Except Failure α :=
  match whole r (.start bytes) with
  | .done a _ => .ok a
  | .failed e _ => .error e

end Reader

end ChainHead.Json
