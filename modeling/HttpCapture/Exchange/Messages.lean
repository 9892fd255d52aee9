import HttpCapture.Exchange.Content
import HttpCapture.Http.ContentRange
import HttpCapture.Http.Head
import HttpCapture.Session.Basic

/-! Messages cut out of one direction's stream. A message starts where the one before it ends; where
none can be read, the search goes on at the next packet. -/

namespace HttpCapture

/-- The limits that reading goes by. -/
structure ReadingLimits where
  completeness : Completeness
  /-- The longest head read. -/
  maxHead : Nat

/-- A stream to be read, and whose it is. -/
structure Reading where
  limits : ReadingLimits
  sessionIndex : Nat
  direction : Direction
  stream : StreamBuffer
  /-- Capture times of the session's packets. -/
  timeOf : Nat → Timestamp

/-- How the end of a body is known. -/
inductive Framing
  | none
  | chunked
  | length (n : Nat)
  | untilClose
  deriving DecidableEq, Repr

/-- Interim responses, 204 and 304, and answers to HEAD requests have no body, whatever their fields
say. -/
def Exchange.isBodiless (e : Exchange) (answersHead : Bool) : Bool :=
  e.status?.any fun status => status < 200 || status == 204 || status == 304 || answersHead

def Exchange.framing (e : Exchange) (answersHead : Bool) : Framing :=
  if e.isBodiless answersHead then .none
  else if e.chunked then .chunked
  else
    match e.contentLength with
    | some n => .length n
    | none => if e.isResponse then .untilClose else .none

/-- The range of a partial response and the length of its object, unless the range disagrees with
the length of the body. -/
def Exchange.partialRange? (e : Exchange) : Option (ByteRange × Option Nat) :=
  if e.status? = some 206 then
    match (e.header? "content-range").map fun s => ContentRange.read s.toList with
    | some (.ok (.satisfied first last instanceLength)) =>
      let n := last - first + 1
      if n < wordBound ∧ e.contentLength.all (· = n) then
        some (⟨UInt64.ofNat first, UInt64.ofNat last⟩, instanceLength)
      else none
    | _ => none
  else none

/-- Fill in what the fields say about the body. -/
def Exchange.readFields (e : Exchange) : Exchange :=
  let e := { e with
    contentLength := e.fields.number? "content-length"
    chunked := e.fields.hasToken "transfer-encoding" "chunked" }
  match e.partialRange? with
  | some (range, instanceLength) => { e with range := some range, instanceLength := instanceLength }
  | none => e

namespace Reading

/-- A body with a declared length. -/
def readLengthBody (r : Reading) (e : Exchange) (start declared available : Nat) : Exchange × Nat :=
  let size := min declared available
  let e := { e with body := e.body.insert start size }
  if size < declared then
    let e := e.note (.payloadTruncated (some declared) size)
    (if r.limits.completeness.fallsShort size declared then { e with extractable := false } else e,
      size)
  else (e, size)

/-- A chunked body. -/
def readChunkedBody (e : Exchange) (start : Nat) (bs : Bytes) : Exchange × Nat :=
  match decodeChunks bs with
  | .ok body =>
    ({ e with body := e.body.insert start body.consumed, chunksComplete := true }, body.consumed)
  | .error (.truncated _) =>
    ({ e with body := e.body.insert start bs.length }.note (.chunkFramingCorrupt none), bs.length)
  | .error (.malformed offset _) =>
    ({ e with body := e.body.insert start offset }.note (.chunkFramingCorrupt (some offset)),
      offset)

/-- Read the body in front of `bs`, which begins at `start`; also how many bytes it takes. -/
def readBody (r : Reading) (e : Exchange) (start : Nat) (bs : Bytes) (answersHead : Bool) :
    Exchange × Nat :=
  let e := e.readFields
  match e.framing answersHead with
  | .none => (e, 0)
  | .untilClose => ({ e with body := e.body.insert start bs.length }, bs.length)
  | .length declared => r.readLengthBody e start declared bs.length
  | .chunked => readChunkedBody e start bs

/-- Fill in the bytes and packets that a message takes. -/
def locate (r : Reading) (e : Exchange) (start size : Nat) : Exchange :=
  let first := r.stream.packetAt start
  let last := r.stream.packetAt (max (start + size - 1) start)
  { e with
    firstPacket := first
    lastPacket := last
    timestamp := (first.map r.timeOf).getD .zero
    lastTimestamp := (last.map r.timeOf).getD .zero
    wireBytes := size }

/-- Report a compressed content that cannot be restored. -/
def checkContent (r : Reading) (e : Exchange) : Exchange :=
  if e.extractable ∧ (e.header? "content-encoding").isSome then
    match e.content r.limits.completeness r.stream.bytes with
    | .error (.decompressionFailure reason) => e.note (.decompressionFailure reason)
    | _ => e
  else e

/-- The message with the given start line at `pos`. -/
def begin (r : Reading) (pos : Nat) (startLine : StartLine) : Exchange :=
  { Exchange.start r.sessionIndex r.direction startLine with headOffset := pos }

/-- A message whose head is cut by the end of the stream. -/
def foundCut (r : Reading) (pos available : Nat) (startLine : StartLine) (fields : Fields) :
    Exchange :=
  let e := { r.begin pos startLine with
    fields := fields, headLength := available, extractable := false }
  r.locate (e.note (.payloadTruncated none available)) pos available

/-- A message with a whole head, and the bytes of its body. -/
def foundWhole (r : Reading) (pos headSize : Nat) (startLine : StartLine) (fields : Fields)
    (bs : Bytes) (answersHead : Bool) : Exchange × Nat :=
  let e := { r.begin pos startLine with fields := fields, headLength := headSize }
  let (e, bodySize) := r.readBody e (pos + headSize) bs answersHead
  (r.locate e pos (headSize + bodySize), bodySize)

/-- Whether a message answers the first of the methods, and it is HEAD. -/
def answersHead (startLine : StartLine) (methods : List String) : Bool :=
  match startLine with
  | .response .. => methods.head?.any (sameLetters · "HEAD")
  | _ => false

/-- The methods still to be answered after a message; only final responses answer one. -/
def remaining (startLine : StartLine) (methods : List String) : List String :=
  match startLine with
  | .response _ status _ => if status ≥ 200 then methods.drop 1 else methods
  | _ => methods

/-- How far it is from `pos` to the next packet, or else to the end. -/
def gap (r : Reading) (pos : Nat) (bs : Bytes) : Nat :=
  match r.stream.nextBoundary pos with
  | some n => n - pos
  | none => bs.length

theorem gap_pos (r : Reading) (pos : Nat) {bs : Bytes} (h : bs ≠ []) : 0 < r.gap pos bs := by
  unfold gap
  split
  · next n hn => have := StreamBuffer.lt_nextBoundary hn; omega
  · exact List.length_pos_iff.2 h

/-- The messages of `bs`, which stands at `pos` in the stream, each finished once it is found. The
methods are those of the requests that the stream's final responses answer, in order. -/
def messagesWith (r : Reading) (finish : Exchange → Exchange) (pos : Nat) (bs : Bytes)
    (methods : List String) : List Exchange :=
  if _hne : bs = [] then []
  else
    let resync (_ : Unit) :=
      r.messagesWith finish (pos + r.gap pos bs) (bs.drop (r.gap pos bs)) methods
    match readHead? r.limits.maxHead bs with
    | none => resync ()
    | some head =>
      match head.block with
      | .oversized => resync ()
      | .truncated fields => [finish (r.foundCut pos bs.length head.startLine fields)]
      | .complete fields size rest =>
        let headSize := head.lineSize + size
        let (e, bodySize) := r.foundWhole pos headSize head.startLine fields rest
          (answersHead head.startLine methods)
        let total := headSize + bodySize
        if _hpos : 0 < total then
          finish e ::
            r.messagesWith finish (pos + total) (bs.drop total) (remaining head.startLine methods)
        else [finish e]
termination_by bs.length
decreasing_by
  all_goals
    have := List.length_pos_iff.2 _hne
    simp only [List.length_drop]
  · have := r.gap_pos pos _hne
    omega
  · omega

/-- The messages of the stream, with the content of each checked. -/
def messages (r : Reading) (methods : List String) : List Exchange :=
  r.messagesWith r.checkContent 0 r.stream.bytes methods

end Reading

end HttpCapture
