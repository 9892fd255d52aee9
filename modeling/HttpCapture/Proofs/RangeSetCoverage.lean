import HttpCapture.Cache.RangeSet
import Mathlib.Order.Interval.Finset.Nat

/-! Range sets as sets of positions. Adding a range adds its positions, and as the ranges of a set
stay apart, the positions that a range lacks can be counted range by range. -/

namespace HttpCapture

theorem toNat_min (a b : UInt64) : (min a b).toNat = min a.toNat b.toNat := by
  show (if a ≤ b then a else b).toNat = _
  split <;> simp_all only [UInt64.le_iff_toNat_le] <;> omega

theorem toNat_max (a b : UInt64) : (max a b).toNat = max a.toNat b.toNat := by
  show (if a ≤ b then b else a).toNat = _
  split <;> simp_all only [UInt64.le_iff_toNat_le] <;> omega

namespace ByteRange

def positions (r : ByteRange) : Finset Nat := Finset.Icc r.first.toNat r.last.toNat

theorem mem_positions {r : ByteRange} {x : Nat} :
    x ∈ r.positions ↔ r.first.toNat ≤ x ∧ x ≤ r.last.toNat :=
  Finset.mem_Icc

theorem isEmpty_eq_false {r : ByteRange} : r.isEmpty = false ↔ r.first.toNat ≤ r.last.toNat := by
  simp [isEmpty, UInt64.le_iff_toNat_le]

/-- Only the full span has more positions than its length tells. -/
theorem length_eq_card {r : ByteRange} (hr : r.isEmpty = false) (hc : r.positions.card < 2 ^ 64) :
    r.length = r.positions.card := by
  have hle := isEmpty_eq_false.mp hr
  rw [positions, Nat.card_Icc] at *
  rw [length]
  omega

theorem positions_inter? (a b : ByteRange) :
    ((a.inter? b).elim ∅ positions) = a.positions ∩ b.positions := by
  ext x
  unfold inter?
  dsimp only
  split
  · next h =>
    simp only [Option.elim_some, Finset.mem_inter, mem_positions, toNat_max, toNat_min]
    omega
  · next h =>
    rw [UInt64.le_iff_toNat_le, toNat_max, toNat_min] at h
    simp only [Option.elim_none, Finset.notMem_empty, Finset.mem_inter, mem_positions, false_iff]
    omega

theorem isEmpty_of_inter? {a b r : ByteRange} (h : a.inter? b = some r) : r.isEmpty = false := by
  unfold inter? at h
  dsimp only at h
  split at h
  · next hle =>
    obtain rfl := Option.some.inj h
    simpa [isEmpty] using hle
  · exact absurd h (by simp)

theorem first_mem_positions {r : ByteRange} (h : r.isEmpty = false) : r.first.toNat ∈ r.positions :=
  mem_positions.mpr ⟨Nat.le_refl _, isEmpty_eq_false.mp h⟩

theorem last_mem_positions {r : ByteRange} (h : r.isEmpty = false) : r.last.toNat ∈ r.positions :=
  mem_positions.mpr ⟨isEmpty_eq_false.mp h, Nat.le_refl _⟩

theorem eq_of_toNat_eq {a b : ByteRange} (hfirst : a.first.toNat = b.first.toNat)
    (hlast : a.last.toNat = b.last.toNat) : a = b := by
  cases a
  cases b
  exact congrArg₂ mk (UInt64.toNat_inj.mp hfirst) (UInt64.toNat_inj.mp hlast)

/-- Two ranges that are not empty are the same if they have the same positions. -/
theorem eq_of_positions_eq {a b : ByteRange} (ha : a.isEmpty = false) (hb : b.isEmpty = false)
    (h : a.positions = b.positions) : a = b := by
  have hfirst := mem_positions.mp (h ▸ first_mem_positions ha)
  have hlast := mem_positions.mp (h ▸ last_mem_positions ha)
  have hfirst' := mem_positions.mp (h.symm ▸ first_mem_positions hb)
  have hlast' := mem_positions.mp (h.symm ▸ last_mem_positions hb)
  exact eq_of_toNat_eq (Nat.le_antisymm hfirst'.1 hfirst.1) (Nat.le_antisymm hlast.2 hlast'.2)

theorem inter?_eq_some_iff {a b r : ByteRange} :
    a.inter? b = some r ↔ r.isEmpty = false ∧ r.positions = a.positions ∩ b.positions := by
  have hpositions := positions_inter? a b
  refine ⟨fun h => ⟨isEmpty_of_inter? h, by rw [← hpositions, h, Option.elim_some]⟩, ?_⟩
  rintro ⟨hr, hmeet⟩
  rw [← hpositions] at hmeet
  cases hinter : a.inter? b with
  | none =>
    rw [hinter] at hmeet
    exact absurd (hmeet ▸ first_mem_positions hr) (Finset.notMem_empty _)
  | some part =>
    rw [hinter, Option.elim_some] at hmeet
    rw [eq_of_positions_eq hr (isEmpty_of_inter? hinter) hmeet]

theorem first_le_of_inter? {a b r : ByteRange} (h : a.inter? b = some r) :
    a.first.toNat ≤ r.first.toNat ∧ b.first.toNat ≤ r.first.toNat := by
  obtain ⟨hr, hmeet⟩ := inter?_eq_some_iff.mp h
  have hfirst := first_mem_positions hr
  rw [hmeet, Finset.mem_inter] at hfirst
  exact ⟨(mem_positions.mp hfirst.1).1, (mem_positions.mp hfirst.2).1⟩

end ByteRange

namespace RangeSet

def positions (s : RangeSet) : Finset Nat := s.foldr (fun r set => r.positions ∪ set) ∅

theorem positions_cons (r : ByteRange) (s : RangeSet) :
    positions (r :: s) = r.positions ∪ positions s := rfl

theorem mem_positions {s : RangeSet} {x : Nat} : x ∈ positions s ↔ ∃ r ∈ s, x ∈ r.positions := by
  induction s with
  | nil => simp [positions]
  | cons r s ih => simp [positions_cons, ih]

/-- Non-empty ranges in ascending order, with a position missing between any two. -/
structure Apart (s : RangeSet) : Prop where
  nonempty : ∀ r ∈ s, r.isEmpty = false
  gaps : s.Pairwise fun a b => a.last.toNat + 1 < b.first.toNat

theorem apart_nil : Apart [] := ⟨by simp, .nil⟩

theorem Apart.tail {r : ByteRange} {s : RangeSet} (h : Apart (r :: s)) : Apart s :=
  ⟨fun c hc => h.nonempty c (List.mem_cons_of_mem _ hc), (List.pairwise_cons.mp h.gaps).2⟩

theorem positions_join {r c : ByteRange} (hr : r.isEmpty = false) (hc : c.isEmpty = false)
    (hbelow : ¬c.last.toNat + 1 < r.first.toNat) (habove : ¬r.last.toNat + 1 < c.first.toNat) :
    (⟨min r.first c.first, max r.last c.last⟩ : ByteRange).positions =
      r.positions ∪ c.positions := by
  have hr := ByteRange.isEmpty_eq_false.mp hr
  have hc := ByteRange.isEmpty_eq_false.mp hc
  ext x
  simp only [Finset.mem_union, ByteRange.mem_positions, toNat_max, toNat_min]
  omega

theorem isEmpty_join {r : ByteRange} (hr : r.isEmpty = false) (c : ByteRange) :
    (⟨min r.first c.first, max r.last c.last⟩ : ByteRange).isEmpty = false := by
  rw [ByteRange.isEmpty_eq_false] at hr ⊢
  simp only [toNat_max, toNat_min]
  omega

theorem positions_absorb {r : ByteRange} {s : RangeSet} (hr : r.isEmpty = false)
    (hs : ∀ c ∈ s, c.isEmpty = false) : (absorb r s).positions = r.positions ∪ s.positions := by
  induction s generalizing r with
  | nil => rfl
  | cons c s ih =>
    have hc := hs c List.mem_cons_self
    have hrest : ∀ d ∈ s, d.isEmpty = false := fun d hd => hs d (List.mem_cons_of_mem _ hd)
    unfold absorb
    split
    · rw [positions_cons, positions_cons, ih hr hrest, Finset.union_left_comm]
    · next hbelow =>
      split
      · rw [positions_cons]
      · next habove =>
        rw [ih (isEmpty_join hr c) hrest, positions_join hr hc hbelow habove, positions_cons,
          Finset.union_assoc]

theorem lt_first_of_mem_absorb {r : ByteRange} {s : RangeSet} {n : Nat} (hr : n < r.first.toNat)
    (hs : ∀ c ∈ s, n < c.first.toNat) : ∀ d ∈ absorb r s, n < d.first.toNat := by
  induction s generalizing r with
  | nil => simpa [absorb] using hr
  | cons c s ih =>
    have hc := hs c List.mem_cons_self
    have hrest : ∀ d ∈ s, n < d.first.toNat := fun d hd => hs d (List.mem_cons_of_mem _ hd)
    unfold absorb
    split
    · exact List.forall_mem_cons.mpr ⟨hc, ih hr hrest⟩
    · split
      · exact List.forall_mem_cons.mpr ⟨hr, hs⟩
      · exact ih (by simp only [toNat_min]; omega) hrest

theorem Apart.absorb {r : ByteRange} {s : RangeSet} (h : Apart s) (hr : r.isEmpty = false) :
    Apart (absorb r s) := by
  induction s generalizing r with
  | nil => exact ⟨by simpa [RangeSet.absorb] using hr, List.pairwise_singleton _ _⟩
  | cons c s ih =>
    have hgaps := List.pairwise_cons.mp h.gaps
    have hc := h.nonempty c List.mem_cons_self
    unfold RangeSet.absorb
    split
    · next hbelow =>
      have hi := ih h.tail hr
      exact ⟨List.forall_mem_cons.mpr ⟨hc, hi.nonempty⟩,
        List.pairwise_cons.mpr ⟨lt_first_of_mem_absorb hbelow hgaps.1, hi.gaps⟩⟩
    · split
      · next habove =>
        rw [ByteRange.isEmpty_eq_false] at hc
        refine ⟨List.forall_mem_cons.mpr ⟨hr, h.nonempty⟩, List.pairwise_cons.mpr ⟨?_, h.gaps⟩⟩
        refine List.forall_mem_cons.mpr ⟨habove, fun d hd => ?_⟩
        have := hgaps.1 d hd
        omega
      · exact ih h.tail (isEmpty_join hr c)

theorem Apart.insert {s : RangeSet} (h : Apart s) (r : ByteRange) : Apart (s.insert r) := by
  unfold RangeSet.insert
  split
  · exact h
  · next hr => exact h.absorb (by simpa using hr)

theorem Apart.positions_insert {s : RangeSet} (h : Apart s) (r : ByteRange) :
    (s.insert r).positions = r.positions ∪ s.positions := by
  unfold RangeSet.insert
  split
  · next hr =>
    have hnone : r.positions = ∅ := by
      rw [ByteRange.positions, Finset.Icc_eq_empty_iff, ← ByteRange.isEmpty_eq_false]
      simpa using hr
    rw [hnone, Finset.empty_union]
  · next hr => exact positions_absorb (by simpa using hr) h.nonempty

/-- After any number of additions the ranges are apart and hold what was added. -/
theorem Apart.foldl_insert {s : RangeSet} (h : Apart s) (rs : List ByteRange) :
    Apart (rs.foldl RangeSet.insert s) ∧
      ∀ x, x ∈ positions (rs.foldl RangeSet.insert s) ↔
        x ∈ s.positions ∨ ∃ r ∈ rs, x ∈ r.positions := by
  induction rs generalizing s with
  | nil => exact ⟨h, by simp⟩
  | cons r rs ih =>
    obtain ⟨hapart, hmem⟩ := ih (h.insert r)
    refine ⟨hapart, fun x => ?_⟩
    simp only [List.foldl_cons, hmem, h.positions_insert, Finset.mem_union, List.mem_cons,
      exists_eq_or_imp]
    rw [or_assoc, or_left_comm]

theorem Apart.sum_inter? {s : RangeSet} (h : Apart s) {r : ByteRange}
    (hc : r.positions.card < 2 ^ 64) :
    (s.filterMap (ByteRange.inter? · r)).foldr (·.length + ·) 0 =
      (s.positions ∩ r.positions).card := by
  induction s with
  | nil => simp [positions]
  | cons c s ih =>
    have hinter := c.positions_inter? r
    have hdisjoint : Disjoint (c.positions ∩ r.positions) (positions s ∩ r.positions) := by
      rw [Finset.disjoint_left]
      intro x hx hx'
      obtain ⟨d, hd, hxd⟩ := mem_positions.mp (Finset.mem_inter.mp hx').1
      have hgap := (List.pairwise_cons.mp h.gaps).1 d hd
      have hxc := ByteRange.mem_positions.mp (Finset.mem_inter.mp hx).1
      have hxd := ByteRange.mem_positions.mp hxd
      omega
    rw [positions_cons, Finset.union_inter_distrib_right, Finset.card_union_of_disjoint hdisjoint,
      ← ih h.tail, List.filterMap_cons]
    cases hi : c.inter? r with
    | none =>
      rw [hi, Option.elim_none] at hinter
      simp [← hinter]
    | some part =>
      rw [hi, Option.elim_some] at hinter
      have hle : part.positions.card ≤ r.positions.card := by
        rw [hinter]
        exact Finset.card_le_card Finset.inter_subset_right
      have hlength := ByteRange.length_eq_card (ByteRange.isEmpty_of_inter? hi)
        (Nat.lt_of_le_of_lt hle hc)
      rw [List.foldr_cons, hlength, hinter]

/-- The bytes of a range that a set holds are those that are not missing. -/
theorem Apart.length_sub_uncovered {s : RangeSet} (h : Apart s) {r : ByteRange}
    (hr : r.isEmpty = false) (hc : r.positions.card < 2 ^ 64) :
    r.length - s.uncovered r = (s.positions ∩ r.positions).card := by
  have hle : (s.positions ∩ r.positions).card ≤ r.positions.card :=
    Finset.card_le_card Finset.inter_subset_right
  rw [uncovered, if_neg (by simp [hr]), h.sum_inter? hc, ByteRange.length_eq_card hr hc]
  omega

theorem positions_of_covers {s : RangeSet} {r : ByteRange} (h : s.covers r = true) :
    r.positions ⊆ s.positions := by
  obtain ⟨c, hc, hcr⟩ := List.any_eq_true.mp h
  simp only [Bool.and_eq_true, decide_eq_true_eq, UInt64.le_iff_toNat_le] at hcr
  intro x hx
  rw [ByteRange.mem_positions] at hx
  exact mem_positions.mpr ⟨c, hc, ByteRange.mem_positions.mpr (by omega)⟩

/-- The position right behind a range of a set is in no other one. -/
theorem Apart.eq_of_near {s : RangeSet} (h : Apart s) {a b : ByteRange} (ha : a ∈ s) (hb : b ∈ s)
    (hab : a.last.toNat + 1 ∈ b.positions) : a = b := by
  obtain ⟨i, hi, rfl⟩ := List.mem_iff_getElem.mp ha
  obtain ⟨j, hj, rfl⟩ := List.mem_iff_getElem.mp hb
  have hgaps := List.pairwise_iff_getElem.mp h.gaps
  have hnonempty := ByteRange.isEmpty_eq_false.mp (h.nonempty _ ha)
  rw [ByteRange.mem_positions] at hab
  rcases Nat.lt_trichotomy i j with hlt | rfl | hlt
  · have := hgaps i j hi hj hlt
    omega
  · rfl
  · have := hgaps j i hj hi hlt
    omega

/-- As no two ranges touch, positions that are all held are held by one range. -/
theorem Apart.covers_iff {s : RangeSet} (h : Apart s) {r : ByteRange} (hr : r.isEmpty = false) :
    s.covers r = true ↔ r.positions ⊆ s.positions := by
  refine ⟨positions_of_covers, fun hsub => ?_⟩
  rw [ByteRange.isEmpty_eq_false] at hr
  have hfirst : r.first.toNat ∈ r.positions := ByteRange.mem_positions.mpr ⟨Nat.le_refl _, hr⟩
  obtain ⟨c, hc, hcfirst⟩ := mem_positions.mp (hsub hfirst)
  rw [ByteRange.mem_positions] at hcfirst
  refine List.any_eq_true.mpr ⟨c, hc, ?_⟩
  simp only [Bool.and_eq_true, decide_eq_true_eq, UInt64.le_iff_toNat_le]
  refine ⟨hcfirst.1, Nat.le_of_not_lt fun hlt => ?_⟩
  have hnext : c.last.toNat + 1 ∈ r.positions := ByteRange.mem_positions.mpr (by omega)
  obtain ⟨d, hd, hdnext⟩ := mem_positions.mp (hsub hnext)
  obtain rfl := h.eq_of_near hc hd hdnext
  rw [ByteRange.mem_positions] at hdnext
  omega

theorem Apart.uncovered_eq {s : RangeSet} (h : Apart s) {r : ByteRange} (hr : r.isEmpty = false)
    (hc : r.positions.card < 2 ^ 64) : s.uncovered r = (r.positions \ s.positions).card := by
  rw [uncovered, if_neg (by simp [hr]), h.sum_inter? hc, ByteRange.length_eq_card hr hc,
    Finset.card_sdiff]

end RangeSet

end HttpCapture
