import HttpCapture.Http.ByteRange

/-! Sets of byte positions as sorted lists of ranges that neither overlap nor touch. -/

namespace HttpCapture

abbrev RangeSet := List ByteRange

namespace RangeSet

/-- Add a non-empty range, joining it with every range it overlaps or touches. -/
def absorb (r : ByteRange) : RangeSet → RangeSet
  | [] => [r]
  | c :: cs =>
    if c.last.toNat + 1 < r.first.toNat then c :: absorb r cs
    else if r.last.toNat + 1 < c.first.toNat then r :: c :: cs
    else absorb ⟨min r.first c.first, max r.last c.last⟩ cs

def insert (s : RangeSet) (r : ByteRange) : RangeSet := if r.isEmpty then s else absorb r s

/-- Whether one range of the set holds all of `r`. -/
def covers (s : RangeSet) (r : ByteRange) : Bool :=
  s.any fun c => c.first ≤ r.first && r.last ≤ c.last

/-- How many bytes of `r` are missing from the set. -/
def uncovered (s : RangeSet) (r : ByteRange) : Nat :=
  if r.isEmpty then 0
  else r.length - (s.filterMap (ByteRange.inter? · r)).foldr (·.length + ·) 0

end RangeSet

end HttpCapture
