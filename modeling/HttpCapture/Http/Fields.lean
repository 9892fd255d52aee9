import HttpCapture.Http.Token
import HttpCapture.Text.Split
import HttpCapture.Text.Unsigned

/-! Header fields. Names are kept in lower case; a value is any bytes the grammar admits, and it has
a text only when all of them are printable ASCII. Lookups go by the stored name. -/

namespace HttpCapture

structure Field where
  name : String
  value : Bytes
  deriving DecidableEq, Repr

/-- The fields of one message in the order they were received. -/
abbrev Fields := List Field

/-- A field name in its stored form: a token of at most 65535 bytes, in lower case. -/
def fieldName? (bs : Bytes) : Option String :=
  if isToken bs && bs.length ≤ 65535 then some (String.ofList (latinText (bs.map lowerByte)))
  else none

def isValueByte (b : UInt8) : Bool := (32 ≤ b && b != 127) || b == 9

def isTextByte (b : UInt8) : Bool := (32 ≤ b && b ≤ 126) || b == 9

inductive FieldError
  | invalidName
  | invalidValue
  deriving DecidableEq, Repr

def Field.ofBytes (name value : Bytes) : Except FieldError Field :=
  match fieldName? name with
  | none => .error .invalidName
  | some n => if value.all isValueByte then .ok ⟨n, value⟩ else .error .invalidValue

/-- The value as text, which exists only for printable ASCII and tabs. -/
def valueText? (value : Bytes) : Option String :=
  if value.all isTextByte then some (String.ofList (latinText value)) else none

namespace Fields

/-- Every value of the fields called `name`. -/
def values (fields : Fields) (name : String) : List Bytes :=
  (fields.filter (·.name == name)).map (·.value)

/-- Every value of the fields called `name` that has a text. -/
def texts (fields : Fields) (name : String) : List String :=
  (values fields name).filterMap valueText?

/-- The text of the first field called `name`; none also when that value has no text. -/
def text? (fields : Fields) (name : String) : Option String :=
  (values fields name).head?.bind valueText?

def number? (fields : Fields) (name : String) : Option Nat :=
  (text? fields name).bind fun s => (readUnsigned (trim s.toList)).toOption

end Fields

/-- The non-empty members of a comma-separated list, trimmed. -/
def listMembers (s : List Char) : List (List Char) :=
  ((splitAll ',' s).map trim).filter (!·.isEmpty)

/-- A list member without its parameters. -/
def memberName (m : List Char) : List Char := trim (m.takeWhile (· != ';'))

/-- Whether some field called `name` lists `token`, whatever the case of its letters. -/
def Fields.hasToken (fields : Fields) (name token : String) : Bool :=
  (fields.texts name).any fun s =>
    (listMembers s.toList).any fun m => lower (memberName m) == lower token.toList

end HttpCapture
