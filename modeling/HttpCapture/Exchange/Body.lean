/-! The pieces of a message body by their place in the stream. -/

namespace HttpCapture

/-- Offset and length of each piece, by ascending offset. -/
abbrev BodySegments := List (Nat × Nat)

namespace BodySegments

/-- Set the length of the piece at `offset`. -/
def put (offset length : Nat) : BodySegments → BodySegments
  | [] => [(offset, length)]
  | (o, l) :: rest =>
    if offset < o then (offset, length) :: (o, l) :: rest
    else if offset = o then (offset, length) :: rest
    else (o, l) :: put offset length rest

/-- Empty pieces are not kept. -/
def insert (s : BodySegments) (offset length : Nat) : BodySegments :=
  if length = 0 then s else put offset length s

def total (s : BodySegments) : Nat := (s.map (·.2)).foldr (· + ·) 0

/-- One past the last byte. -/
def stop? (s : BodySegments) : Option Nat := s.getLast?.map fun (o, l) => o + l

end BodySegments

end HttpCapture
