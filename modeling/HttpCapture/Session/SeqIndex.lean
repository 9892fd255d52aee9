/-! What a session remembers of one direction's sequence and acknowledgement numbers. -/

namespace HttpCapture

/-- The packets that start at each sequence number, numbers ascending and
packets in capture order. -/
abbrev SeqIndex := List (UInt32 × List Nat)

namespace SeqIndex

def add (seq : UInt32) (packet : Nat) : SeqIndex → SeqIndex
  | [] => [(seq, [packet])]
  | (s, packets) :: rest =>
    if seq < s then (seq, [packet]) :: (s, packets) :: rest
    else if seq = s then (s, packets ++ [packet]) :: rest
    else (s, packets) :: add seq packet rest

end SeqIndex

/-- A set of acknowledgement numbers, ascending. -/
abbrev AckSet := List UInt32

namespace AckSet

def insert (ack : UInt32) : AckSet → AckSet
  | [] => [ack]
  | a :: rest =>
    if ack < a then ack :: a :: rest
    else if ack = a then a :: rest
    else a :: insert ack rest

end AckSet

end HttpCapture
