import HttpCapture.Decimal.Layout
import HttpCapture.Json.Value

/-! The text of a JSON value, on one line or indented by two blanks a level. Text is written onto
the text that follows it. -/

namespace HttpCapture.Json

/-- Characters that may not stand in a string as they are. -/
def escape (c : Char) : List Char :=
  if c = '"' then ['\\', '"']
  else if c = '\\' then ['\\', '\\']
  else if c.toNat = 8 then ['\\', 'b']
  else if c.toNat = 12 then ['\\', 'f']
  else if c = '\n' then ['\\', 'n']
  else if c = '\r' then ['\\', 'r']
  else if c = '\t' then ['\\', 't']
  else if c.toNat < 32 then
    ['\\', 'u', '0', '0', Nat.digitChar (c.toNat / 16), Nat.digitChar (c.toNat % 16)]
  else [c]

def quote (s : String) : List Char := '"' :: s.toList.flatMap escape ++ ['"']

def scalarText : Json → List Char
  | .bool true => "true".toList
  | .bool false => "false".toList
  | .int n => (toString n).toList
  | .float bits => NumberFormat.json.text bits
  | .str s => quote s
  | _ => "null".toList

mutual

def compactOnto (rest : List Char) : Json → List Char
  | .arr items => '[' :: compactItems (']' :: rest) items
  | .obj members => '\x7b' :: compactMembers ('\x7d' :: rest) members
  | scalar => scalarText scalar ++ rest

def compactItems (rest : List Char) : List Json → List Char
  | [] => rest
  | [item] => compactOnto rest item
  | item :: items => compactOnto (',' :: compactItems rest items) item

def compactMembers (rest : List Char) : List (String × Json) → List Char
  | [] => rest
  | [(name, value)] => quote name ++ ':' :: compactOnto rest value
  | (name, value) :: members =>
    quote name ++ ':' :: compactOnto (',' :: compactMembers rest members) value

end

def compact (j : Json) : String := String.ofList (compactOnto [] j)

/-- A new line at the given level. -/
def newLine (level : Nat) (rest : List Char) : List Char :=
  '\n' :: List.replicate (2 * level) ' ' ++ rest

mutual

def prettyOnto (level : Nat) (rest : List Char) : Json → List Char
  | .arr [] => '[' :: ']' :: rest
  | .arr items =>
    '[' :: newLine (level + 1) (prettyItems (level + 1) (newLine level (']' :: rest)) items)
  | .obj [] => '\x7b' :: '\x7d' :: rest
  | .obj members =>
    '\x7b' ::
      newLine (level + 1) (prettyMembers (level + 1) (newLine level ('\x7d' :: rest)) members)
  | scalar => scalarText scalar ++ rest

def prettyItems (level : Nat) (rest : List Char) : List Json → List Char
  | [] => rest
  | [item] => prettyOnto level rest item
  | item :: items =>
    prettyOnto level (',' :: newLine level (prettyItems level rest items)) item

def prettyMembers (level : Nat) (rest : List Char) : List (String × Json) → List Char
  | [] => rest
  | [(name, value)] => quote name ++ ':' :: ' ' :: prettyOnto level rest value
  | (name, value) :: members =>
    quote name ++
      ':' :: ' ' :: prettyOnto level (',' :: newLine level (prettyMembers level rest members)) value

end

def pretty (j : Json) : String := String.ofList (prettyOnto 0 [] j)

end HttpCapture.Json
