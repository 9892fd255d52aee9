import HttpCapture.Exchange.Basic
import HttpCapture.Text.Line

/-! Message heads: a start line, header lines, and an empty line. A head has to end within a
limit. -/

namespace HttpCapture

/-- A status line has a code of three digits. -/
def statusLine? (version code : List Char) (reason : List Char) : Option StartLine :=
  if code.length = 3 && code.all Char.isDigit then
    some (.response (String.ofList version)
      (code.foldl (fun n c => n * 10 + (c.toNat - 48)) 0) (String.ofList reason))
  else none

/-- A request line has a token, a target and a version without blanks. -/
def requestLine? (method uri version : List Char) : Option StartLine :=
  if isToken (utf8Bytes (String.ofList method)) && !uri.isEmpty &&
      "HTTP/".toList.isPrefixOf version && !version.contains ' ' then
    some (.request (String.ofList method) (String.ofList uri) (String.ofList version))
  else none

/-- The start line that a line of text is. Parts are separated by single blanks, and the third one
is the rest of the line. -/
def startLine? (line : List Char) : Option StartLine :=
  match cutAt ' ' line with
  | none => none
  | some (first, rest) =>
    let (second, third) := match cutAt ' ' rest with
      | none => (rest, none)
      | some (second, third) => (second, some third)
    if "HTTP/".toList.isPrefixOf first then statusLine? first second (third.getD [])
    else third.bind (requestLine? first second)

def StartLine.read? (line : Bytes) : Option StartLine :=
  (utf8Text? line).bind fun s => startLine? s.toList

/-- The field on a header line; a line that is none has no colon or bytes that may not stand in
it. -/
def headerField? (line : Bytes) : Option Field :=
  (cutAt 0x3a line).bind fun (name, value) =>
    (Field.ofBytes (trimBytes name) (trimBytes value)).toOption

/-- What the header lines of a message come to. -/
inductive HeaderBlock
  /-- The fields, the bytes read up to and with the empty line, and what follows. -/
  | complete (fields : Fields) (size : Nat) (rest : Bytes)
  /-- The stream ends first. -/
  | truncated (fields : Fields)
  /-- The limit is reached first. -/
  | oversized
  deriving DecidableEq, Repr

/-- Put a field and its line in front of the block. -/
def HeaderBlock.addLine (field : Option Field) (lineSize : Nat) : HeaderBlock → HeaderBlock
  | .complete fields size rest => .complete (field.toList ++ fields) (lineSize + size) rest
  | .truncated fields => .truncated (field.toList ++ fields)
  | .oversized => .oversized

/-- The first line, if it ends within the limit. -/
def lineWithin? (limit : Nat) (bs : Bytes) : Option Line :=
  (firstLine? bs).filter fun l => l.size ≤ limit

theorem lineWithin?_eq_some {limit : Nat} {bs : Bytes} {l : Line}
    (h : lineWithin? limit bs = some l) : firstLine? bs = some l ∧ l.size ≤ limit := by
  simpa [lineWithin?, Option.filter_eq_some_iff] using h

/-- Read header lines of which `limit` bytes may be used. -/
def readHeaderLines (limit : Nat) (bs : Bytes) : HeaderBlock :=
  match _h : lineWithin? limit bs with
  | none => if bs.length ≤ limit then .truncated [] else .oversized
  | some l =>
    if l.text.isEmpty then .complete [] l.size l.rest
    else (readHeaderLines (limit - l.size) l.rest).addLine (headerField? l.text) l.size
termination_by bs.length
decreasing_by exact firstLine?_rest_lt (lineWithin?_eq_some _h).1

/-- The head at the start of a stream. -/
structure Head where
  startLine : StartLine
  /-- Bytes of the start line, its ending included. -/
  lineSize : Nat
  block : HeaderBlock
  deriving DecidableEq, Repr

/-- The head at the start of `bs`, if the stream stands at a start line. -/
def readHead? (limit : Nat) (bs : Bytes) : Option Head :=
  (lineWithin? limit bs).bind fun l =>
    (StartLine.read? l.text).map fun startLine =>
      ⟨startLine, l.size, readHeaderLines (limit - l.size) l.rest⟩

end HttpCapture
