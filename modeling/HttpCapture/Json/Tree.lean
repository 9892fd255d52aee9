import HttpCapture.Json.Number
import HttpCapture.Text.Ascii

/-! JSON documents as they are written. Numbers keep their digits, and a string whose escapes spell
half a surrogate pair has no text: whether that matters depends on who asks for the value. -/

namespace HttpCapture

inductive JsonTree
  | null
  | bool (b : Bool)
  | number (t : NumberText)
  | str (s : Option String)
  | arr (items : List JsonTree)
  | obj (members : List (Option String × JsonTree))

namespace JsonTree

def isSpace (c : Char) : Bool := c = ' ' ∨ c = '\n' ∨ c = '\t' ∨ c = '\r'

def skipSpace (s : List Char) : List Char := s.dropWhile isSpace

def hexDigitValue? (c : Char) : Option Nat :=
  if c.toNat < 128 then hexValue? (UInt8.ofNat c.toNat) else none

/-- The number that four hexadecimal digits spell. -/
def hex4? (a b c d : Char) : Option Nat := do
  return (((← hexDigitValue? a) * 16 + (← hexDigitValue? b)) * 16 + (← hexDigitValue? c)) * 16 +
    (← hexDigitValue? d)

/-- A piece of a string: a character, or half a surrogate pair. -/
inductive StringUnit
  | char (c : Char)
  | high (n : Nat)
  | low (n : Nat)

def StringUnit.ofNat (n : Nat) : StringUnit :=
  if 0xd800 ≤ n ∧ n ≤ 0xdbff then .high n
  else if 0xdc00 ≤ n ∧ n ≤ 0xdfff then .low n
  else .char (Char.ofNat n)

/-- Join surrogate halves; `text` holds the characters so far, last first. -/
def joinUnits (text : List Char) : List StringUnit → Option (List Char)
  | [] => some text.reverse
  | .char c :: rest => joinUnits (c :: text) rest
  | .high h :: .low l :: rest =>
    joinUnits (Char.ofNat (0x10000 + (h - 0xd800) * 0x400 + (l - 0xdc00)) :: text) rest
  | _ => none

/-- The character that a short escape stands for. -/
def shortEscape? (c : Char) : Option Char :=
  match c with
  | '"' => some '"'
  | '\\' => some '\\'
  | '/' => some '/'
  | 'b' => some '\x08'
  | 'f' => some '\x0c'
  | 'n' => some '\n'
  | 'r' => some '\r'
  | 't' => some '\t'
  | _ => none

/-- Read a string whose opening quote is behind; `units` holds what was read, last first. -/
def readUnits? (units : List StringUnit) : List Char → Option (List StringUnit × List Char)
  | [] => none
  | '"' :: rest => some (units.reverse, rest)
  | '\\' :: 'u' :: a :: b :: c :: d :: rest =>
    match hex4? a b c d with
    | some n => readUnits? (.ofNat n :: units) rest
    | none => none
  | '\\' :: c :: rest =>
    match shortEscape? c with
    | some c => readUnits? (.char c :: units) rest
    | none => none
  | c :: rest => if c.toNat < 32 then none else readUnits? (.char c :: units) rest

def readString? (s : List Char) : Option (Option String × List Char) :=
  (readUnits? [] s).map fun (units, rest) => ((joinUnits [] units).map String.ofList, rest)

mutual

/-- A value at the front of a text, and what follows it. Two steps a character suffice. -/
def read? : Nat → List Char → Option (JsonTree × List Char)
  | 0, _ => none
  | fuel + 1, s =>
    match skipSpace s with
    | 'n' :: 'u' :: 'l' :: 'l' :: r => some (.null, r)
    | 't' :: 'r' :: 'u' :: 'e' :: r => some (.bool true, r)
    | 'f' :: 'a' :: 'l' :: 's' :: 'e' :: r => some (.bool false, r)
    | '"' :: r => (readString? r).map fun (s, r) => (.str s, r)
    | '[' :: r =>
      match skipSpace r with
      | ']' :: r => some (.arr [], r)
      | r => (readItems? fuel r).map fun (items, r) => (.arr items, r)
    | '\x7b' :: r =>
      match skipSpace r with
      | '\x7d' :: r => some (.obj [], r)
      | r => (readMembers? fuel r).map fun (members, r) => (.obj members, r)
    | r => (NumberText.read? r).map fun (t, r) => (.number t, r)

/-- The items of an array up to its end; there is at least one. -/
def readItems? : Nat → List Char → Option (List JsonTree × List Char)
  | 0, _ => none
  | fuel + 1, s =>
    match read? fuel s with
    | none => none
    | some (item, r) =>
      match skipSpace r with
      | ']' :: r => some ([item], r)
      | ',' :: r => (readItems? fuel r).map fun (items, r) => (item :: items, r)
      | _ => none

/-- The members of an object up to its end; there is at least one. -/
def readMembers? : Nat → List Char → Option (List (Option String × JsonTree) × List Char)
  | 0, _ => none
  | fuel + 1, s =>
    match skipSpace s with
    | '"' :: r =>
      match readString? r with
      | none => none
      | some (name, r) =>
        match skipSpace r with
        | ':' :: r =>
          match read? fuel r with
          | none => none
          | some (value, r) =>
            match skipSpace r with
            | '\x7d' :: r => some ([(name, value)], r)
            | ',' :: r =>
              (readMembers? fuel r).map fun (members, r) => ((name, value) :: members, r)
            | _ => none
        | _ => none
    | _ => none

end

/-- A document: one value with nothing but blanks around it. -/
def ofText? (s : List Char) : Option JsonTree :=
  match read? (2 * s.length + 2) s with
  | some (t, r) => if (skipSpace r).isEmpty then some t else none
  | none => none

mutual

/-- How deep arrays and objects are nested. -/
def depth : JsonTree → Nat
  | .arr items => depthItems items + 1
  | .obj members => depthMembers members + 1
  | _ => 0

def depthItems : List JsonTree → Nat
  | [] => 0
  | t :: ts => max (depth t) (depthItems ts)

def depthMembers : List (Option String × JsonTree) → Nat
  | [] => 0
  | (_, t) :: ts => max (depth t) (depthMembers ts)

end

mutual

/-- Whether every string has a text and every number is in range. -/
def isMeaningful : JsonTree → Bool
  | .number t => t.value?.isSome
  | .str s => s.isSome
  | .arr items => areMeaningful items
  | .obj members => haveMeaning members
  | _ => true

def areMeaningful : List JsonTree → Bool
  | [] => true
  | t :: ts => isMeaningful t && areMeaningful ts

def haveMeaning : List (Option String × JsonTree) → Bool
  | [] => true
  | (name, t) :: ts => name.isSome && isMeaningful t && haveMeaning ts

end

end JsonTree

end HttpCapture
