import HttpCapture.Capture.Packet
import HttpCapture.Exchange.Body
import HttpCapture.Http.ByteRange
import HttpCapture.Http.Fields

/-! Exchanges: the requests and responses found in a session's streams. -/

namespace HttpCapture

inductive StartLine
  | request (method uri version : String)
  | response (version : String) (status : Nat) (reason : String)
  /-- Known from the traffic alone, since the message is encrypted. -/
  | encrypted
  deriving DecidableEq, Repr

/-- What is wrong with a single exchange. -/
inductive ExchangeDiagnostic
  | payloadTruncated (declared : Option Nat) (available : Nat)
  | chunkFramingCorrupt (offset : Option Nat)
  | decompressionFailure (reason : String)
  | requestResponseUnlinked
  deriving DecidableEq, Repr

def optionText : Option Nat → String
  | none => "None"
  | some n => "Some(" ++ toString n ++ ")"

def ExchangeDiagnostic.message : ExchangeDiagnostic → String
  | .payloadTruncated declared available =>
    "payload truncated: " ++ toString available ++ " bytes captured, " ++ optionText declared ++
      " declared"
  | .chunkFramingCorrupt offset =>
    "chunk framing corrupt (body offset " ++ optionText offset ++ ")"
  | .decompressionFailure reason => "content decompression failed: " ++ reason
  | .requestResponseUnlinked => "response has no outstanding request"

structure Exchange where
  /-- Place of the session among all sessions. -/
  session : Nat
  /-- Place among the exchanges of its session. -/
  index : Nat
  direction : Direction
  startLine : StartLine
  fields : Fields
  /-- Where the start line begins in the stream. -/
  headOffset : Nat
  headLength : Nat
  /-- The body as sent, framing included. -/
  body : BodySegments
  contentLength : Option Nat
  chunked : Bool
  chunksComplete : Bool
  /-- Whether the content may be used. -/
  extractable : Bool
  /-- The part of the object that a partial response carries. -/
  range : Option ByteRange
  /-- Length of the whole object, as far as a partial response tells. -/
  instanceLength : Option Nat
  firstPacket : Option Nat
  lastPacket : Option Nat
  timestamp : Timestamp
  lastTimestamp : Timestamp
  /-- Bytes of the stream that belong to the exchange. -/
  wireBytes : Nat
  /-- Place of the response of a request, or the request of a response. -/
  paired : Option Nat
  diagnostics : List ExchangeDiagnostic
  deriving DecidableEq, Repr

namespace Exchange

/-- An exchange of which only the start line is known. -/
def start (session : Nat) (direction : Direction) (startLine : StartLine) : Exchange where
  session := session
  index := 0
  direction := direction
  startLine := startLine
  fields := []
  headOffset := 0
  headLength := 0
  body := []
  contentLength := none
  chunked := false
  chunksComplete := false
  extractable := true
  range := none
  instanceLength := none
  firstPacket := none
  lastPacket := none
  timestamp := .zero
  lastTimestamp := .zero
  wireBytes := 0
  paired := none
  diagnostics := []

/-- An encrypted exchange counts as a request when it travels up. -/
def isRequest (e : Exchange) : Bool :=
  match e.startLine with
  | .request .. => true
  | .encrypted => e.direction = .uplink
  | .response .. => false

def isResponse (e : Exchange) : Bool :=
  match e.startLine with
  | .response .. => true
  | .encrypted => e.direction = .downlink
  | .request .. => false

def isEncrypted (e : Exchange) : Bool := e.startLine = .encrypted

def method? (e : Exchange) : Option String :=
  match e.startLine with
  | .request method _ _ => some method
  | _ => none

def uri? (e : Exchange) : Option String :=
  match e.startLine with
  | .request _ uri _ => some uri
  | _ => none

def status? (e : Exchange) : Option Nat :=
  match e.startLine with
  | .response _ status _ => some status
  | _ => none

def header? (e : Exchange) (name : String) : Option String := e.fields.text? name

/-- The target without scheme and authority: what follows them from the first slash on. -/
def targetPath (uri : List Char) : List Char :=
  match (after? "http://".toList uri) <|> (after? "https://".toList uri) with
  | none => uri
  | some rest => if rest.contains '/' then rest.dropWhile (· != '/') else ['/']

def path? (e : Exchange) : Option String := e.uri?.map fun u => String.ofList (targetPath u.toList)

/-- The Host field, else the name known for the remote side, else its address. -/
def host (e : Exchange) (remoteHost : Option String) (remoteAddr : IpAddress) : String :=
  match e.header? "host" with
  | some h => String.ofList (lower (trim h.toList))
  | none => remoteHost.getD (String.ofList remoteAddr.text)

/-- Report a problem. -/
def note (e : Exchange) (d : ExchangeDiagnostic) : Exchange :=
  { e with diagnostics := e.diagnostics ++ [d] }

end Exchange

end HttpCapture
