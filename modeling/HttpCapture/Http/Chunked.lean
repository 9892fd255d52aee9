import HttpCapture.Text.Ascii
import HttpCapture.Text.Line
import HttpCapture.Text.Unsigned

/-! The chunked transfer coding. A body is a run of chunks, each a line with its size in
hexadecimal, that many bytes and a line ending, then a chunk of size zero and trailer lines up to an
empty one. Main definitions: `decodeChunks` and its converse `encodeChunks`. -/

namespace HttpCapture

/-- The data of one chunk and where it starts in the input. -/
structure Chunk where
  offset : Nat
  data : Bytes
  deriving DecidableEq, Repr

structure ChunkedBody where
  chunks : List Chunk
  /-- Bytes of input read, the trailer included. -/
  consumed : Nat
  deriving DecidableEq, Repr

namespace ChunkedBody

/-- Offset and length of the data of each chunk. -/
def segments (b : ChunkedBody) : List (Nat × Nat) := b.chunks.map fun c => (c.offset, c.data.length)

def data (b : ChunkedBody) : Bytes := b.chunks.flatMap (·.data)

end ChunkedBody

/-- Why a body could not be read to its end, and what had been read by then. -/
inductive ChunkError
  | truncated (before : ChunkedBody)
  | malformed (offset : Nat) (before : ChunkedBody)
  deriving DecidableEq, Repr

namespace ChunkError

def before : ChunkError → ChunkedBody
  | .truncated b => b
  | .malformed _ b => b

def message : ChunkError → String
  | .truncated _ => "chunk stream ended before the zero-size chunk"
  | .malformed offset _ => "malformed chunk framing at offset " ++ toString offset

end ChunkError

/-- The number that hexadecimal digits spell, if there are any and it fits 64 bits. -/
def readHex? (digits : Bytes) : Option Nat :=
  if digits.isEmpty then none
  else (digits.mapM hexValue?).bind fun ds =>
    let n := ds.foldl (· * 16 + ·) 0
    if n < wordBound then some n else none

/-- The size on a chunk's first line; what follows a semicolon does not count. -/
def chunkSize? (line : Bytes) : Option Nat := readHex? (trimBytes (line.takeWhile (· != 0x3b)))

/-- Length of the trailer: the lines up to the first empty one, or all whole lines. -/
def trailerLength (bs : Bytes) : Nat :=
  match _h : firstLine? bs with
  | none => 0
  | some l => if l.text.isEmpty then l.size else l.size + trailerLength l.rest
termination_by bs.length
decreasing_by exact firstLine?_rest_lt _h

/-- How the line ending after a chunk's data looks. -/
inductive ChunkEnd
  | ended (size : Nat) (rest : Bytes)
  | cut
  | broken

def ChunkEnd.of : Bytes → ChunkEnd
  | 13 :: 10 :: rest => .ended 2 rest
  | 10 :: rest => .ended 1 rest
  | [] => .cut
  | [13] => .cut
  | _ => .broken

theorem ChunkEnd.length_of {bs rest : Bytes} {n : Nat} (h : ChunkEnd.of bs = .ended n rest) :
    n + rest.length = bs.length := by
  unfold ChunkEnd.of at h
  split at h <;> simp_all <;> omega

/-- How the reading of a body ended. -/
inductive ChunkOutcome
  | complete
  | truncated
  | malformed (offset : Nat)
  deriving DecidableEq, Repr

/-- Put a chunk in front of those read after it. -/
def addChunk (c : Chunk) (r : ChunkedBody × ChunkOutcome) : ChunkedBody × ChunkOutcome :=
  (⟨c :: r.1.chunks, r.1.consumed⟩, r.2)

/-- Read the chunks of `bs`, which stands at `pos` in the input. -/
def scanChunks (pos : Nat) (bs : Bytes) : ChunkedBody × ChunkOutcome :=
  match _hl : firstLine? bs with
  | none => (⟨[], pos⟩, .truncated)
  | some l =>
    match chunkSize? l.text with
    | none => (⟨[], pos⟩, .malformed pos)
    | some 0 => (⟨[], pos + l.size + trailerLength l.rest⟩, .complete)
    | some (n + 1) =>
      let start := pos + l.size
      match _hd : l.rest.drop n with
      | [] =>
        let available := l.rest.length
        (⟨if available = 0 then [] else [⟨start, l.rest⟩], start + available⟩, .truncated)
      | _ :: tail =>
        let chunk : Chunk := ⟨start, l.rest.take (n + 1)⟩
        let stop := start + n + 1
        match _he : ChunkEnd.of tail with
        | .ended k rest => addChunk chunk (scanChunks (stop + k) rest)
        | .cut => (⟨[chunk], stop⟩, .truncated)
        | .broken => (⟨[chunk], stop⟩, .malformed stop)
termination_by bs.length
decreasing_by
  have h₁ := firstLine?_rest_lt _hl
  have h₂ := ChunkEnd.length_of _he
  have h₃ := congrArg List.length _hd
  simp at h₃
  omega

/-- The body at the start of the input. -/
def decodeChunks (bs : Bytes) : Except ChunkError ChunkedBody :=
  match scanChunks 0 bs with
  | (body, .complete) => .ok body
  | (body, .truncated) => .error (.truncated body)
  | (body, .malformed offset) => .error (.malformed offset body)

def lineEnding : Bytes := [13, 10]

/-- One chunk of the coding. -/
def encodeChunk (data : Bytes) : Bytes := hexBytes data.length ++ lineEnding ++ data ++ lineEnding

/-- Data in chunks of `size + 1` bytes, the last one shorter if need be. -/
def encodeParts (size : Nat) (data : Bytes) : Bytes :=
  if data.isEmpty then []
  else encodeChunk (data.take (size + 1)) ++ encodeParts size (data.drop (size + 1))
termination_by data.length
decreasing_by
  simp_all
  have := List.length_pos_iff.2 ‹¬data = []›
  omega

/-- Data framed in chunks of at most `size` bytes; size zero counts as one. -/
def encodeChunks (data : Bytes) (size : Nat) : Bytes :=
  encodeParts (size - 1) data ++ hexBytes 0 ++ lineEnding ++ lineEnding

end HttpCapture
