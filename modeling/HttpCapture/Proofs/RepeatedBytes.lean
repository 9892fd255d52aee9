import HttpCapture.Cache.Replay
import HttpCapture.Proofs.RangeSetCoverage

/-! Which bytes of an object a content carries, and that the bytes counted as verified were carried
before: a matching range holds offsets at which both contents have the same byte, and the range set
of the matching ranges counts each offset once. -/

namespace HttpCapture

theorem ByteRange.ofLength?_eq_some {first : UInt64} {length : Nat} {r : ByteRange}
    (h : ofLength? first length = some r) :
    r.first = first ∧ r.last.toNat = first.toNat + (length - 1) ∧ 0 < length ∧ length < 2 ^ 64 := by
  unfold ofLength? at h
  split at h
  · exact absurd h (by simp)
  · next hn =>
    obtain rfl := Option.some.inj h
    refine ⟨rfl, ?_, by omega, by omega⟩
    rw [UInt64.toNat_ofNat']
    omega

/-- Where the content of an exchange begins in its object. -/
def Exchange.origin (e : Exchange) : Nat :=
  ((e.range.map fun (r : ByteRange) => r.first).getD 0).toNat

namespace Capture

def byteAt? (c : Completeness) (x : Capture) (offset : Nat) : Option UInt8 :=
  (x.content c).toOption.bind fun bytes =>
    if x.exchange.origin ≤ offset then bytes[offset - x.exchange.origin]? else none

def offsets (c : Completeness) (x : Capture) : Finset Nat :=
  (x.content c).toOption.elim ∅ fun bytes =>
    Finset.Ico x.exchange.origin (x.exchange.origin + bytes.length)

theorem byteAt?_of_content {c : Completeness} {x : Capture} {bytes : Bytes}
    (h : x.content c = .ok bytes) {offset : Nat} (ho : x.exchange.origin ≤ offset) :
    x.byteAt? c offset = bytes[offset - x.exchange.origin]? := by
  simp [byteAt?, h, Except.toOption, ho]

theorem positions_placement {e : Exchange} {length : Nat} {r : ByteRange}
    (h : e.placement length = some r) :
    r.positions = Finset.Ico e.origin (e.origin + length) ∧ r.isEmpty = false ∧
      r.positions.card < 2 ^ 64 := by
  obtain ⟨hfirst, hlast, hpos, hlt⟩ := ByteRange.ofLength?_eq_some h
  have hpositions : r.positions = Finset.Ico e.origin (e.origin + length) := by
    ext x
    rw [ByteRange.mem_positions, Finset.mem_Ico, hlast, hfirst]
    unfold Exchange.origin
    omega
  refine ⟨hpositions, ?_, ?_⟩
  · rw [ByteRange.isEmpty_eq_false, hlast, hfirst]
    omega
  · rw [hpositions, Nat.card_Ico]
    omega

theorem getElem?_window (content : Bytes) {origin : UInt64} {r : ByteRange} {x : Nat}
    (ho : origin.toNat ≤ r.first.toNat) (hx : x ∈ r.positions) :
    (window content origin r)[x - r.first.toNat]? = content[x - origin.toNat]? := by
  rw [ByteRange.mem_positions] at hx
  have hlt : x - r.first.toNat < r.last.toNat - r.first.toNat + 1 := by omega
  have hplace : r.first.toNat - origin.toNat + (x - r.first.toNat) = x - origin.toNat := by omega
  rw [window, List.getElem?_take_of_lt hlt, List.getElem?_drop, hplace]

theorem exists_ne_of_window_ne {ca cb : Bytes} {origin origin' : UInt64} {r : ByteRange}
    (hr : r.isEmpty = false) (ho : origin.toNat ≤ r.first.toNat)
    (ho' : origin'.toNat ≤ r.first.toNat) (h : window ca origin r ≠ window cb origin' r) :
    ∃ x ∈ r.positions, ca[x - origin.toNat]? ≠ cb[x - origin'.toNat]? := by
  have hr := ByteRange.isEmpty_eq_false.mp hr
  -- Neither window is longer than the range, so nothing else could tell them apart.
  by_contra hno
  push Not at hno
  apply h
  refine List.ext_getElem? fun i => ?_
  by_cases hi : r.first.toNat + i ∈ r.positions
  · have hbyte := hno _ hi
    rw [← getElem?_window ca ho hi, ← getElem?_window cb ho' hi] at hbyte
    simpa using hbyte
  · rw [ByteRange.mem_positions] at hi
    have hlength : ∀ (content : Bytes) (origin : UInt64), (window content origin r).length ≤ i := by
      intro content origin
      rw [window, List.length_take]
      omega
    rw [List.getElem?_eq_none (hlength _ _), List.getElem?_eq_none (hlength _ _)]

theorem overlap_eq_some_iff {a b : Exchange} {ca cb : Bytes} {r : ByteRange} {same : Bool} :
    overlap a ca b cb = some (r, same) ↔ ∃ ra rb, a.placement ca.length = some ra ∧
      b.placement cb.length = some rb ∧ ra.inter? rb = some r ∧
      (window ca ra.first r == window cb rb.first r) = same := by
  unfold overlap
  simp only [Option.bind_eq_bind, Option.bind_eq_some_iff, Option.pure_def, Option.some.injEq,
    Prod.mk.injEq]
  constructor
  · rintro ⟨ra, hra, rb, hrb, part, hinter, rfl, hsame⟩
    exact ⟨ra, rb, hra, hrb, hinter, hsame⟩
  · rintro ⟨ra, rb, hra, hrb, hinter, hsame⟩
    exact ⟨ra, hra, rb, hrb, r, hinter, rfl, hsame⟩

/-- Two contents overlap at the offsets that both span, and are compared there. -/
theorem overlap_eq_some {a b : Exchange} {ca cb : Bytes} {r : ByteRange} {same : Bool}
    (h : overlap a ca b cb = some (r, same)) :
    r.positions = Finset.Ico a.origin (a.origin + ca.length) ∩
        Finset.Ico b.origin (b.origin + cb.length) ∧
      r.isEmpty = false ∧ ∃ u v : UInt64, u.toNat = a.origin ∧ v.toNat = b.origin ∧
        u.toNat ≤ r.first.toNat ∧ v.toNat ≤ r.first.toNat ∧
        (window ca u r == window cb v r) = same := by
  obtain ⟨ra, rb, hra, hrb, hinter, hsame⟩ := overlap_eq_some_iff.mp h
  obtain ⟨hr, hmeet⟩ := ByteRange.inter?_eq_some_iff.mp hinter
  obtain ⟨hu, hv⟩ := ByteRange.first_le_of_inter? hinter
  rw [(positions_placement hra).1, (positions_placement hrb).1] at hmeet
  exact ⟨hmeet, hr, ra.first, rb.first,
    congrArg UInt64.toNat (ByteRange.ofLength?_eq_some hra).1,
    congrArg UInt64.toNat (ByteRange.ofLength?_eq_some hrb).1, hu, hv, hsame⟩

theorem overlap_agrees {a b : Exchange} {ca cb : Bytes} {r : ByteRange}
    (h : overlap a ca b cb = some (r, true)) {x : Nat} (hx : x ∈ r.positions) :
    a.origin ≤ x ∧ b.origin ≤ x ∧ ca[x - a.origin]? = cb[x - b.origin]? := by
  obtain ⟨hpositions, -, u, v, hu, hv, hur, hvr, hsame⟩ := overlap_eq_some h
  have hbyte := getElem?_window ca hur hx
  rw [beq_iff_eq.mp hsame, getElem?_window cb hvr hx, hu, hv] at hbyte
  rw [hpositions, Finset.mem_inter, Finset.mem_Ico, Finset.mem_Ico] at hx
  exact ⟨hx.1.1, hx.2.1, hbyte.symm⟩

/-- Two contents that agree on a range have the same byte at each of its offsets. -/
theorem matchingRange_byteAt? {c : Completeness} {a b : Capture} {r : ByteRange}
    (h : Capture.matchingRange c a b = some r) {x : Nat} (hx : x ∈ r.positions) :
    a.byteAt? c x = b.byteAt? c x := by
  unfold matchingRange at h
  split at h
  · next ca cb ha hb =>
    split at h
    · exact absurd h (by simp)
    · obtain ⟨⟨part, same⟩, hoverlap, hsome⟩ := Option.bind_eq_some_iff.mp h
      cases same with
      | false => exact absurd hsome (by simp)
      | true =>
        obtain rfl : part = r := by simpa using hsome
        obtain ⟨hoa, hob, hbyte⟩ := overlap_agrees hoverlap hx
        rw [byteAt?_of_content ha hoa, byteAt?_of_content hb hob, hbyte]
  · exact absurd h (by simp)

end Capture

namespace Reply

/-- The offsets of a reply at which some of the given replies have the same byte. -/
def repeated (c : Completeness) (r : Reply) (others : List Reply) : Finset Nat :=
  (r.capture.offsets c).filter fun x =>
    ∃ p ∈ others, p.capture.byteAt? c x = r.capture.byteAt? c x

theorem repeated_mono {c : Completeness} {r : Reply} {ps qs : List Reply} (h : ∀ p ∈ ps, p ∈ qs) :
    r.repeated c ps ⊆ r.repeated c qs := by
  intro x hx
  obtain ⟨ho, p, hp, hbyte⟩ := Finset.mem_filter.mp hx
  exact Finset.mem_filter.mpr ⟨ho, p, h p hp, hbyte⟩

theorem verifiedBytes_le (c : Completeness) (r : Reply) (pieces : List Reply) :
    r.verifiedBytes c pieces ≤ r.bodyBytes := by
  unfold verifiedBytes
  split
  · exact Nat.zero_le _
  · dsimp only
    split
    · exact Nat.le_refl _
    · exact Nat.min_le_right _ _

/-- Verified bytes do not exceed the offsets at which a piece has the same byte, unless that is the
whole content. -/
theorem verifiedBytes_le_repeated (c : Completeness) (r : Reply) (pieces : List Reply) :
    r.capture.offsets c ⊆ r.repeated c pieces ∨
      r.verifiedBytes c pieces ≤ (r.repeated c pieces).card := by
  unfold verifiedBytes
  cases hspan : r.response.span? c r.capture.stream with
  | none => exact .inr (Nat.zero_le _)
  | some wanted =>
    obtain ⟨bytes, hcontent, hplace⟩ := Option.bind_eq_some_iff.mp hspan
    obtain ⟨hpositions, hne, hcard⟩ := Capture.positions_placement hplace
    have hoffsets : r.capture.offsets c = wanted.positions := by
      rw [hpositions, Capture.offsets]
      change Option.elim (r.response.content c r.capture.stream).toOption _ _ = _
      rw [hcontent]
      rfl
    obtain ⟨hapart, hmem⟩ := RangeSet.apart_nil.foldl_insert
      (pieces.filterMap fun p => p.capture.matchingRange c r.capture)
    have hverified := hapart.length_sub_uncovered hne hcard
    have hsubset : RangeSet.positions ((pieces.filterMap fun p =>
        p.capture.matchingRange c r.capture).foldl RangeSet.insert []) ∩ wanted.positions ⊆
          r.repeated c pieces := by
      intro x hx
      obtain ⟨hx, hw⟩ := Finset.mem_inter.mp hx
      rcases (hmem x).mp hx with hx | ⟨q, hq, hx⟩
      · exact absurd hx (by simp [RangeSet.positions])
      · obtain ⟨p, hp, hmatch⟩ := List.mem_filterMap.mp hq
        rw [repeated, Finset.mem_filter, hoffsets]
        exact ⟨hw, p, hp, Capture.matchingRange_byteAt? hmatch hx⟩
    dsimp only
    rw [hverified, ByteRange.length_eq_card hne hcard]
    split
    · next hall =>
      left
      have hsame :=
        Finset.eq_of_subset_of_card_le Finset.inter_subset_right (Nat.le_of_eq hall.symm)
      rw [hoffsets, ← hsame]
      exact hsubset
    · exact .inr (Nat.le_trans (Nat.min_le_left _ _) (Finset.card_le_card hsubset))

end Reply

end HttpCapture
