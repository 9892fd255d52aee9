import HttpCapture.Coding.Gzip
import HttpCapture.Exchange.Basic
import HttpCapture.Http.Chunked

/-! The content of an exchange: its body without chunk framing and compression, and how the contents
of two exchanges compare when each is put at its place in the object. -/

namespace HttpCapture

inductive ContentError
  | notExtractable
  | payloadTruncated (declared available : Nat)
  | chunkFramingCorrupt (recovered : Bytes)
  | decompressionFailure (reason : String)
  deriving DecidableEq, Repr

def ContentError.message : ContentError → String
  | .notExtractable => "exchange content is not extractable"
  | .payloadTruncated declared available =>
    "payload truncated: " ++ toString available ++ " of " ++ toString declared ++ " bytes captured"
  | .chunkFramingCorrupt recovered =>
    "chunk framing corrupt after " ++ toString recovered.length ++ " bytes"
  | .decompressionFailure reason => "gzip decompression failed: " ++ reason

/-- The share of a declared length that has to be captured for a content to be usable. -/
structure Completeness where
  threshold : Float

namespace Completeness

def standard : Completeness := ⟨0.9⟩

def fallsShort (c : Completeness) (available declared : Nat) : Bool :=
  available.toUInt64.toFloat < c.threshold * declared.toUInt64.toFloat

end Completeness

namespace Exchange

/-- The body bytes that the stream holds. -/
def rawBody (stream : Bytes) (e : Exchange) : Bytes :=
  e.body.flatMap fun (offset, length) => (stream.drop offset).take length

/-- How many body bytes a stream of the given length holds. -/
def capturedLength (streamLength : Nat) (e : Exchange) : Nat :=
  (e.body.map fun (offset, length) => min (offset + length) streamLength - offset).foldr (· + ·) 0

def isGzip (e : Exchange) : Bool :=
  e.fields.hasToken "content-encoding" "gzip" || e.fields.hasToken "content-encoding" "x-gzip"

/-- The body without its framing. -/
def unframed (c : Completeness) (e : Exchange) (raw : Bytes) : Except ContentError Bytes :=
  if e.chunked then
    match decodeChunks raw with
    | .ok body => .ok body.data
    | .error err => .error (.chunkFramingCorrupt err.before.data)
  else
    match e.contentLength with
    | none => .ok raw
    | some declared =>
      let available := raw.length
      if c.fallsShort available declared then .error (.payloadTruncated declared available)
      else .ok raw

def content (c : Completeness) (stream : Bytes) (e : Exchange) : Except ContentError Bytes :=
  if !e.extractable then .error .notExtractable
  else
    match e.unframed c (e.rawBody stream) with
    | .error err => .error err
    | .ok body =>
      if e.isGzip then (Gzip.decompress body).mapError (.decompressionFailure ·.message)
      else .ok body

/-- Where a content of the given length lies in the object: from the start of the range it carries,
or from zero. -/
def placement (e : Exchange) (length : Nat) : Option ByteRange :=
  ByteRange.ofLength? ((e.range.map (·.first)).getD 0) length

/-- The object bytes that the content spans. -/
def span? (c : Completeness) (stream : Bytes) (e : Exchange) : Option ByteRange :=
  (e.content c stream).toOption.bind fun bytes => e.placement bytes.length

end Exchange

/-- The bytes of `r` from a content that starts at `origin`. -/
def window (content : Bytes) (origin : UInt64) (r : ByteRange) : Bytes :=
  (content.drop (r.first.toNat - origin.toNat)).take (r.last.toNat - r.first.toNat + 1)

/-- The object bytes that two contents have in common, and whether they agree there. -/
def overlap (a : Exchange) (ca : Bytes) (b : Exchange) (cb : Bytes) :
    Option (ByteRange × Bool) := do
  let ra ← a.placement ca.length
  let rb ← b.placement cb.length
  let r ← ra.inter? rb
  return (r, window ca ra.first r == window cb rb.first r)

/-- A captured exchange together with the stream that holds its body. -/
structure Capture where
  stream : Bytes
  exchange : Exchange

namespace Capture

def content (c : Completeness) (x : Capture) : Except ContentError Bytes :=
  x.exchange.content c x.stream

/-- Neither of the two is a part of its object. -/
def areWhole (a b : Capture) : Bool := a.exchange.range.isNone && b.exchange.range.isNone

/-- Whether two contents agree where they overlap; contents without a range have to be equal. -/
def sameContent (c : Completeness) (a b : Capture) : Bool :=
  match a.content c, b.content c with
  | .ok ca, .ok cb =>
    if areWhole a b then ca == cb
    else ((overlap a.exchange ca b.exchange cb).map (·.2)).getD false
  | _, _ => false

/-- The object bytes where two contents overlap and agree. -/
def matchingRange (c : Completeness) (a b : Capture) : Option ByteRange :=
  match a.content c, b.content c with
  | .ok ca, .ok cb =>
    if areWhole a b && ca != cb then none
    else (overlap a.exchange ca b.exchange cb).bind fun (r, same) => if same then some r else none
  | _, _ => none

end Capture

end HttpCapture
