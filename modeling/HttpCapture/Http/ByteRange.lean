/-! Intervals of byte positions in an object, both ends included. -/

namespace HttpCapture

structure ByteRange where
  first : UInt64
  last : UInt64
  deriving DecidableEq, Repr, Inhabited

namespace ByteRange

def isEmpty (r : ByteRange) : Bool := r.last < r.first

/-- The number of bytes, which for the full span is one less than there are, so that it fits 64
bits. -/
def length (r : ByteRange) : Nat := min (r.last.toNat - r.first.toNat + 1) 0xffffffffffffffff

/-- The range of `length` bytes from `first` on, if there are any, and their number and the position
of the last one fit 64 bits. -/
def ofLength? (first : UInt64) (length : Nat) : Option ByteRange :=
  if length = 0 ∨ 0xffffffffffffffff < length ∨ 0x10000000000000000 < first.toNat + length then none
  else some ⟨first, UInt64.ofNat (first.toNat + (length - 1))⟩

/-- The common part of two ranges. -/
def inter? (a b : ByteRange) : Option ByteRange :=
  let first := max a.first b.first
  let last := min a.last b.last
  if first ≤ last then some ⟨first, last⟩ else none

end ByteRange

end HttpCapture
