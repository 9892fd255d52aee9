import HttpCapture.Text.Blank

/-! The byte stream of one direction, put together from packet payloads. Each segment says which
packet its bytes came from. Segments follow one another without gaps. -/

namespace HttpCapture

structure StreamSegment where
  offset : Nat
  length : Nat
  packet : Nat
  deriving DecidableEq, Repr

def StreamSegment.stop (s : StreamSegment) : Nat := s.offset + s.length

/-- A packet's place in sequence and its payload. -/
structure Placed where
  packet : Nat
  position : Nat
  payload : Bytes
  deriving DecidableEq, Repr

/-- The part of a packet's payload that the stream takes over. -/
structure Piece where
  packet : Nat
  bytes : Bytes
  deriving DecidableEq, Repr

/-- Take packets in the given order, leaving out what lies before `reached`, the position that the
stream has come to. A hole is closed: the stream simply goes on after it. -/
def takePieces (reached : Nat) : List Placed → List Piece
  | [] => []
  | p :: ps =>
    match p.payload.drop (reached - p.position) with
    | [] => takePieces reached ps
    | bytes => ⟨p.packet, bytes⟩ :: takePieces (p.position + p.payload.length) ps

/-- Where the pieces come to lie, the first at `offset`. -/
def layOut (offset : Nat) : List Piece → List StreamSegment
  | [] => []
  | p :: ps => ⟨offset, p.bytes.length, p.packet⟩ :: layOut (offset + p.bytes.length) ps

structure StreamBuffer where
  bytes : Bytes
  segments : List StreamSegment
  deriving DecidableEq, Repr, Inhabited

namespace StreamBuffer

def empty : StreamBuffer := ⟨[], []⟩

def ofPieces (ps : List Piece) : StreamBuffer := ⟨ps.flatMap (·.bytes), layOut 0 ps⟩

def ofPlaced (ps : List Placed) : StreamBuffer := ofPieces (takePieces 0 ps)

def length (b : StreamBuffer) : Nat := b.bytes.length

/-- The packet that the byte at `offset` came from. -/
def packetAt (b : StreamBuffer) (offset : Nat) : Option Nat :=
  ((b.segments.find? fun s => offset < s.stop).filter fun s => s.offset ≤ offset).map (·.packet)

/-- The first segment start behind `offset`. -/
def nextBoundary (b : StreamBuffer) (offset : Nat) : Option Nat :=
  (b.segments.find? fun s => offset < s.offset).map (·.offset)

theorem lt_nextBoundary {b : StreamBuffer} {offset n : Nat} (h : b.nextBoundary offset = some n) :
    offset < n := by
  obtain ⟨s, hs, rfl⟩ := Option.map_eq_some_iff.1 h
  simpa using List.find?_some hs

end StreamBuffer

end HttpCapture
