import HttpCapture.Proofs.RangeSetCoverage
import HttpCapture.Text.Unsigned

/-! The list of a range set is told by the positions that it holds. Ranges that are apart begin and
end where their positions do, so that two lists of the same positions are equal, whatever was added
in which order. Arithmetic that stops at the greatest 64-bit number comes to the same lists and
counts. -/

namespace HttpCapture

namespace ByteRange

/-- All positions that 64 bits can number. -/
def full : ByteRange := ⟨0, 0xffffffffffffffff⟩

theorem card_positions_lt {r : ByteRange} (hr : r.isEmpty = false) (hfull : r ≠ full) :
    r.positions.card < 2 ^ 64 := by
  have hle := isEmpty_eq_false.mp hr
  have hlast := r.last.toNat_lt
  rw [positions, Nat.card_Icc]
  refine Nat.lt_of_not_le fun hcard => hfull (eq_of_toNat_eq ?_ ?_)
  · show r.first.toNat = 0
    omega
  · show r.last.toNat = 0xffffffffffffffff
    omega

end ByteRange

namespace RangeSet

variable {s t : RangeSet} {a b : ByteRange}

theorem Apart.first_le (h : Apart (a :: s)) {x : Nat} (hx : x ∈ positions (a :: s)) :
    a.first.toNat ≤ x := by
  obtain ⟨c, hc, hxc⟩ := mem_positions.mp hx
  rw [ByteRange.mem_positions] at hxc
  rcases List.mem_cons.mp hc with rfl | hc
  · exact hxc.1
  · have hgap := (List.pairwise_cons.mp h.gaps).1 c hc
    have hle := ByteRange.isEmpty_eq_false.mp (h.nonempty a List.mem_cons_self)
    omega

/-- The first range ends in front of the first gap. -/
theorem Apart.next_notMem (h : Apart (a :: s)) : a.last.toNat + 1 ∉ positions (a :: s) := by
  intro hx
  obtain ⟨c, hc, hxc⟩ := mem_positions.mp hx
  obtain rfl := h.eq_of_near List.mem_cons_self hc hxc
  rw [ByteRange.mem_positions] at hxc
  omega

theorem Apart.le_last (h : Apart (a :: s)) (hpositions : positions (b :: t) = positions (a :: s))
    (hfirst : b.first.toNat = a.first.toNat) : b.last.toNat ≤ a.last.toNat := by
  refine Nat.le_of_not_lt fun hlt => h.next_notMem ?_
  have ha := ByteRange.isEmpty_eq_false.mp (h.nonempty a List.mem_cons_self)
  rw [← hpositions, positions_cons]
  exact Finset.mem_union_left _ (ByteRange.mem_positions.mpr (by omega))

theorem Apart.positions_tail (h : Apart (a :: s)) :
    s.positions = positions (a :: s) \ a.positions := by
  rw [positions_cons, Finset.union_sdiff_left]
  refine (Finset.sdiff_eq_self_of_disjoint ?_).symm
  rw [Finset.disjoint_left]
  intro x hx hxa
  obtain ⟨c, hc, hxc⟩ := mem_positions.mp hx
  have hgap := (List.pairwise_cons.mp h.gaps).1 c hc
  rw [ByteRange.mem_positions] at hxa hxc
  omega

/-- There is one list of ranges for a set of positions. -/
theorem Apart.eq_of_positions_eq (hs : Apart s) (ht : Apart t) (h : s.positions = t.positions) :
    s = t := by
  induction s generalizing t with
  | nil =>
    cases t with
    | nil => rfl
    | cons b t =>
      have hb := ByteRange.first_mem_positions (ht.nonempty b List.mem_cons_self)
      have hmem : b.first.toNat ∈ positions (b :: t) := Finset.mem_union_left _ hb
      rw [← h] at hmem
      exact absurd hmem (Finset.notMem_empty _)
  | cons a s ih =>
    have ha := ByteRange.first_mem_positions (hs.nonempty a List.mem_cons_self)
    cases t with
    | nil =>
      have hmem : a.first.toNat ∈ positions (a :: s) := Finset.mem_union_left _ ha
      rw [h] at hmem
      exact absurd hmem (Finset.notMem_empty _)
    | cons b t =>
      have hb := ByteRange.first_mem_positions (ht.nonempty b List.mem_cons_self)
      have hba : b.first.toNat ≤ a.first.toNat := ht.first_le (h ▸ Finset.mem_union_left _ ha)
      have hab : a.first.toNat ≤ b.first.toNat := hs.first_le (h ▸ Finset.mem_union_left _ hb)
      have hfirst := Nat.le_antisymm hab hba
      have hlast := Nat.le_antisymm (ht.le_last h hfirst) (hs.le_last h.symm hfirst.symm)
      obtain rfl := ByteRange.eq_of_toNat_eq hfirst hlast
      rw [ih hs.tail ht.tail (by rw [hs.positions_tail, ht.positions_tail, h])]

end RangeSet

section Saturating

/-- The sum of two words, or the greatest word if the sum exceeds it. -/
def addWords (a b : UInt64) : UInt64 :=
  if a.toNat + b.toNat < wordBound then a + b else 0xffffffffffffffff

/-- The difference of two words, or zero if it falls below. -/
def subWords (a b : UInt64) : UInt64 := if b ≤ a then a - b else 0

theorem toNat_addWords (a b : UInt64) :
    (addWords a b).toNat = min (a.toNat + b.toNat) 0xffffffffffffffff := by
  unfold addWords wordBound
  split
  · next h =>
    rw [UInt64.toNat_add]
    omega
  · show 0xffffffffffffffff = _
    omega

theorem toNat_subWords (a b : UInt64) : (subWords a b).toNat = a.toNat - b.toNat := by
  unfold subWords
  split
  · next h => exact UInt64.toNat_sub_of_le a b h
  · next h =>
    rw [UInt64.le_iff_toNat_le] at h
    show 0 = _
    omega

def ByteRange.lengthWord (r : ByteRange) : UInt64 := addWords (subWords r.last r.first) 1

theorem ByteRange.toNat_lengthWord (r : ByteRange) : r.lengthWord.toNat = r.length := by
  rw [lengthWord, toNat_addWords, toNat_subWords]
  rfl

/-- The test for a gap, which is also right behind the greatest word. -/
theorem addWords_one_lt {a b : UInt64} : addWords a 1 < b ↔ a.toNat + 1 < b.toNat := by
  have hb := b.toNat_lt
  rw [UInt64.lt_iff_toNat_lt, toNat_addWords, show (1 : UInt64).toNat = 1 from rfl]
  omega

namespace RangeSet

/-- One pass over all ranges that collects what touches the new range and puts the result in place
once. -/
def mergeWords (r : ByteRange) (placed : Bool) : RangeSet → RangeSet
  | [] => if placed then [] else [r]
  | c :: cs =>
    if addWords c.last 1 < r.first then c :: mergeWords r placed cs
    else if addWords r.last 1 < c.first then
      if placed then c :: mergeWords r true cs else r :: c :: mergeWords r true cs
    else mergeWords ⟨min r.first c.first, max r.last c.last⟩ placed cs

def insertWords (s : RangeSet) (r : ByteRange) : RangeSet :=
  if r.isEmpty then s else mergeWords r false s

/-- The bytes of `r` that the set lacks, as a word. -/
def uncoveredWord (s : RangeSet) (r : ByteRange) : UInt64 :=
  if r.isEmpty then 0
  else subWords r.lengthWord
    ((s.filterMap (ByteRange.inter? · r)).foldl (fun n c => addWords n c.lengthWord) 0)

theorem mergeWords_placed {r : ByteRange} {s : RangeSet}
    (h : ∀ c ∈ s, r.last.toNat + 1 < c.first.toNat) (hr : r.isEmpty = false)
    (hs : ∀ c ∈ s, c.isEmpty = false) : mergeWords r true s = s := by
  induction s with
  | nil => rfl
  | cons c s ih =>
    have hc := h c List.mem_cons_self
    have hne := ByteRange.isEmpty_eq_false.mp (hs c List.mem_cons_self)
    rw [ByteRange.isEmpty_eq_false] at hr
    rw [mergeWords, if_neg (by rw [addWords_one_lt]; omega), if_pos (addWords_one_lt.mpr hc),
      if_pos rfl, ih (fun d hd => h d (List.mem_cons_of_mem _ hd))
        fun d hd => hs d (List.mem_cons_of_mem _ hd)]

/-- Behind the place of the new range nothing changes, so that the pass may end there. -/
theorem mergeWords_eq_absorb {r : ByteRange} {s : RangeSet} (hr : r.isEmpty = false)
    (hs : Apart s) : mergeWords r false s = absorb r s := by
  induction s generalizing r with
  | nil => rfl
  | cons c s ih =>
    unfold mergeWords absorb
    simp only [addWords_one_lt]
    split
    · rw [ih hr hs.tail]
    · split
      · next habove =>
        have hc := ByteRange.isEmpty_eq_false.mp (hs.nonempty c List.mem_cons_self)
        have hbehind : ∀ d ∈ s, r.last.toNat + 1 < d.first.toNat := by
          intro d hd
          have hgap := (List.pairwise_cons.mp hs.gaps).1 d hd
          omega
        rw [if_neg Bool.false_ne_true, mergeWords_placed hbehind hr hs.tail.nonempty]
      · exact ih (isEmpty_join hr c) hs.tail

theorem Apart.insertWords_eq {s : RangeSet} (h : Apart s) (r : ByteRange) :
    s.insertWords r = s.insert r := by
  unfold insertWords RangeSet.insert
  split
  · rfl
  · next hr => exact mergeWords_eq_absorb (by simpa using hr) h

theorem Apart.foldl_insertWords {s : RangeSet} (h : Apart s) (rs : List ByteRange) :
    rs.foldl insertWords s = rs.foldl RangeSet.insert s := by
  induction rs generalizing s with
  | nil => rfl
  | cons r rs ih => rw [List.foldl_cons, List.foldl_cons, h.insertWords_eq, ih (h.insert r)]

theorem toNat_foldl_addWords (n : UInt64) (rs : List ByteRange) :
    (rs.foldl (fun n c => addWords n c.lengthWord) n).toNat =
      min (n.toNat + rs.foldr (·.length + ·) 0) 0xffffffffffffffff := by
  induction rs generalizing n with
  | nil =>
    have := n.toNat_lt
    rw [List.foldl_nil, List.foldr_nil]
    omega
  | cons r rs ih =>
    rw [List.foldl_cons, ih, toNat_addWords, ByteRange.toNat_lengthWord, List.foldr_cons]
    omega

theorem toNat_uncoveredWord (s : RangeSet) (r : ByteRange) :
    (s.uncoveredWord r).toNat = s.uncovered r := by
  unfold uncoveredWord uncovered
  split
  · rfl
  · have hlength : r.length ≤ 0xffffffffffffffff := Nat.min_le_right _ _
    rw [toNat_subWords, toNat_foldl_addWords, ByteRange.toNat_lengthWord,
      show (0 : UInt64).toNat = 0 from rfl]
    omega

end RangeSet

end Saturating

namespace RangeSet

def ofRanges (rs : List ByteRange) : RangeSet := rs.foldl RangeSet.insert []

/-- The positions that some of the ranges holds. -/
def Added (rs : List ByteRange) (x : Nat) : Prop := ∃ r ∈ rs, x ∈ r.positions

theorem apart_ofRanges (rs : List ByteRange) : Apart (ofRanges rs) :=
  (apart_nil.foldl_insert rs).1

theorem mem_positions_ofRanges {rs : List ByteRange} {x : Nat} :
    x ∈ (ofRanges rs).positions ↔ Added rs x := by
  refine ((apart_nil.foldl_insert rs).2 x).trans ?_
  simp [positions, Added]

instance (rs : List ByteRange) (x : Nat) : Decidable (Added rs x) :=
  inferInstanceAs (Decidable (∃ r ∈ rs, x ∈ r.positions))

theorem ofRanges_eq_iff {rs rs' : List ByteRange} :
    ofRanges rs' = ofRanges rs ↔ ∀ x, Added rs' x ↔ Added rs x := by
  refine ⟨fun h x => ?_, fun h => ?_⟩
  · rw [← mem_positions_ofRanges, h, mem_positions_ofRanges]
  · refine (apart_ofRanges rs').eq_of_positions_eq (apart_ofRanges rs) (Finset.ext fun x => ?_)
    rw [mem_positions_ofRanges, mem_positions_ofRanges, h]

theorem covers_ofRanges {rs : List ByteRange} {r : ByteRange} (hr : r.isEmpty = false) :
    (ofRanges rs).covers r = true ↔ ∀ x ∈ r.positions, Added rs x :=
  ((apart_ofRanges rs).covers_iff hr).trans
    (forall₂_congr fun _ _ => mem_positions_ofRanges)

theorem uncovered_ofRanges {rs : List ByteRange} {r : ByteRange} (hr : r.isEmpty = false)
    (hfull : r ≠ .full) :
    (ofRanges rs).uncovered r = {x ∈ r.positions | ¬Added rs x}.card := by
  rw [(apart_ofRanges rs).uncovered_eq hr (ByteRange.card_positions_lt hr hfull),
    Finset.sdiff_eq_filter]
  simp only [mem_positions_ofRanges]

/-- After any additions the ranges are not empty, ascend and neither overlap nor touch. They hold
what was added, and are the same for all additions of the same bytes, in whatever order, however
often and however cut. A range is covered if each of its bytes was added, and else lacks as many as
were not. Arithmetic by words, which stops at the greatest one, gives the same list and the same
counts. -/
theorem ofRanges_normalForm (rs : List ByteRange) :
    Apart (ofRanges rs) ∧ (∀ x, x ∈ (ofRanges rs).positions ↔ Added rs x) ∧
    (∀ rs', ofRanges rs' = ofRanges rs ↔ ∀ x, Added rs' x ↔ Added rs x) ∧
    (∀ r : ByteRange, r.isEmpty = false →
      ((ofRanges rs).covers r = true ↔ ∀ x ∈ r.positions, Added rs x) ∧
      (r ≠ .full → (ofRanges rs).uncovered r = {x ∈ r.positions | ¬Added rs x}.card)) ∧
    rs.foldl insertWords [] = ofRanges rs ∧
    ∀ r, ((ofRanges rs).uncoveredWord r).toNat = (ofRanges rs).uncovered r :=
  ⟨apart_ofRanges rs, fun _ => mem_positions_ofRanges, fun _ => ofRanges_eq_iff,
    fun _ hr => ⟨covers_ofRanges hr, uncovered_ofRanges hr⟩, apart_nil.foldl_insertWords rs,
    toNat_uncoveredWord _⟩

/-- A range that joins two others, one that is repeated, and one at the end of all positions. -/
theorem ofRanges_normalForm_of_bridge :
    let last : ByteRange := ⟨0xfffffffffffffffe, 0xffffffffffffffff⟩
    let rs : List ByteRange := [⟨100, 199⟩, ⟨0, 9⟩, last, ⟨5, 150⟩]
    let wanted : ByteRange := ⟨190, 209⟩
    ofRanges rs = [⟨0, 199⟩, last] ∧ ofRanges [last, ⟨10, 199⟩, last, ⟨0, 9⟩] = ofRanges rs ∧
      wanted.isEmpty = false ∧ wanted ≠ .full ∧
      (ofRanges rs).uncovered wanted = {x ∈ wanted.positions | ¬Added rs x}.card ∧
      (ofRanges rs).uncovered wanted = 10 := by
  intro last rs wanted
  have hwanted : wanted.isEmpty = false ∧ wanted ≠ .full := by decide
  exact ⟨by decide, by decide, hwanted.1, hwanted.2,
    ((ofRanges_normalForm rs).2.2.2.1 wanted hwanted.1).2 hwanted.2, by decide⟩

end RangeSet

end HttpCapture
