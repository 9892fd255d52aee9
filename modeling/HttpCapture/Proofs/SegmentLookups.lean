import HttpCapture.Proofs.StreamSegments
import Mathlib.Order.Bounds.Basic

/-! Looking up an offset by halving. Such a search finds where the elements with a property end only
if they all stand in front of the others. Segments stand so for every offset, each beginning where
those before it have ended; so the search finds what looking through them one by one would find. -/

namespace HttpCapture

section

variable {α : Type} {p : α → Bool} {l : List α} {place : Nat}

/-- Where the elements with `p` end, among the `size` elements from `base` on. The element in the
middle tells which half to go on with. -/
def partitionFrom (p : α → Bool) (l : List α) (base size : Nat) : Nat :=
  if size ≤ 1 then
    if l[base]?.any p then base + 1 else base
  else
    let half := size / 2
    if l[base + half]?.any p then partitionFrom p l (base + half) (size - half)
    else partitionFrom p l base (size - half)
termination_by size

def partitionPoint (p : α → Bool) (l : List α) : Nat := partitionFrom p l 0 l.length

/-- The elements in front of `place` have `p`, and no others. -/
def DividesAt (p : α → Bool) (l : List α) (place : Nat) : Prop :=
  ∀ i, l[i]?.any p = true ↔ i < place

theorem partitionFrom_eq (h : DividesAt p l place) {base size : Nat} (hbase : base ≤ place)
    (hplace : place ≤ base + size) : partitionFrom p l base size = place := by
  fun_induction partitionFrom p l base size with
  | case1 base size hsize hp =>
    have := (h base).mp hp
    omega
  | case2 base size hsize hp =>
    have := mt (h base).mpr hp
    omega
  | case3 base size hsize half hp ih =>
    have := (h (base + half)).mp hp
    exact ih (by omega) (by omega)
  | case4 base size hsize half hp ih =>
    have := mt (h (base + half)).mpr hp
    exact ih hbase (by omega)

theorem dividesAt_findIdx (h : l.Pairwise fun a b => p b = true → p a = true) :
    DividesAt p l (l.findIdx (!p ·)) := by
  induction l with
  | nil => simp [DividesAt]
  | cons a l ih =>
    obtain ⟨hfirst, hrest⟩ := List.pairwise_cons.mp h
    intro i
    cases hp : p a with
    | false =>
      have hnone : ∀ b ∈ a :: l, p b = false := by
        refine List.forall_mem_cons.mpr ⟨hp, fun b hb => Bool.eq_false_iff.mpr fun hpb => ?_⟩
        exact Bool.false_ne_true (hp.symm.trans (hfirst b hb hpb))
      cases hi : (a :: l)[i]? with
      | none => simp [List.findIdx_cons, hp]
      | some b => simp [List.findIdx_cons, hp, hnone b (List.mem_of_getElem? hi)]
    | true =>
      cases i with
      | zero => simp [List.findIdx_cons, hp]
      | succ i => simpa [List.findIdx_cons, hp] using ih hrest i

theorem getElem?_partitionPoint (h : l.Pairwise fun a b => p b = true → p a = true) :
    l[partitionPoint p l]? = l.find? (!p ·) := by
  have hle : l.findIdx (!p ·) ≤ l.length := List.findIdx_le_length
  have hpoint : partitionPoint p l = l.findIdx (!p ·) :=
    partitionFrom_eq (dividesAt_findIdx h) (Nat.zero_le _) (by omega)
  rw [hpoint, List.find?_eq_getElem?_findIdx]

theorem getElem?_partitionPoint_le {f : α → Nat} (h : l.Pairwise fun a b => f a ≤ f b) (n : Nat) :
    l[partitionPoint (fun a => f a ≤ n) l]? = l.find? fun a => n < f a := by
  have hordered : l.Pairwise fun a b => decide (f b ≤ n) = true → decide (f a ≤ n) = true :=
    h.imp fun hle hb => decide_eq_true (Nat.le_trans hle (of_decide_eq_true hb))
  have hfind := getElem?_partitionPoint hordered
  simpa only [← decide_not, Nat.not_le] using hfind

end

namespace StreamBuffer

/-- `packetAt`, looked up by halving. -/
def searchPacketAt (b : StreamBuffer) (offset : Nat) : Option Nat :=
  (b.segments[partitionPoint (fun s => s.stop ≤ offset) b.segments]?.filter
    fun s => s.offset ≤ offset).map (·.packet)

/-- `nextBoundary`, looked up by halving. -/
def searchNextBoundary (b : StreamBuffer) (offset : Nat) : Option Nat :=
  b.segments[partitionPoint (fun s => s.offset ≤ offset) b.segments]?.map (·.offset)

/-- What is to be found at an offset: the packet of the segment around it, of which there is just
one up to the end of the buffer, and the least start of a segment behind it. -/
structure Finds (b : StreamBuffer) (offset : Nat) (packet boundary : Option Nat) : Prop where
  inside : offset < b.length → b.CameFrom offset packet
  outside : packet = none ↔ b.length ≤ offset
  next : ∀ n, boundary = some n ↔ IsLeast {m | b.StartsSegment m ∧ offset < m} n
  noNext : boundary = none ↔ ¬ ∃ m, b.StartsSegment m ∧ offset < m

/-- Each segment begins no earlier than those before it end. -/
def Apart (b : StreamBuffer) : Prop := b.segments.Pairwise fun s t => s.stop ≤ t.offset

variable {b : StreamBuffer} {offset : Nat}

theorem apart_ofPieces (ps : List Piece) : (ofPieces ps).Apart := layOut_ascending 0 ps

theorem searchPacketAt_eq (h : b.Apart) (offset : Nat) :
    b.searchPacketAt offset = b.packetAt offset := by
  have hstops : b.segments.Pairwise fun s t => s.stop ≤ t.stop :=
    h.imp fun hst => Nat.le_trans hst (Nat.le_add_right _ _)
  rw [searchPacketAt, getElem?_partitionPoint_le hstops, packetAt]

theorem searchNextBoundary_eq (h : b.Apart) (offset : Nat) :
    b.searchNextBoundary offset = b.nextBoundary offset := by
  have hstarts : b.segments.Pairwise fun s t => s.offset ≤ t.offset :=
    h.imp fun hst => Nat.le_trans (Nat.le_add_right _ _) hst
  rw [searchNextBoundary, getElem?_partitionPoint_le hstarts, nextBoundary]

theorem packetAt_eq_none_iff (ps : List Piece) (offset : Nat) :
    (ofPieces ps).packetAt offset = none ↔ (ofPieces ps).length ≤ offset := by
  constructor
  · intro hnone
    by_contra hlt
    obtain ⟨s, -, -, -, hsome⟩ := cameFrom_packetAt (Nat.lt_of_not_le hlt)
    rw [hnone] at hsome
    cases hsome
  · intro hle
    have hfind : (ofPieces ps).segments.find? (fun s => offset < s.stop) = none := by
      refine List.find?_eq_none.mpr fun s hs => ?_
      have hstop : s.stop ≤ 0 + (ofPieces ps).length := (bounds_of_mem_layOut hs).2
      simp only [decide_eq_true_eq]
      omega
    rw [packetAt, hfind]
    rfl

theorem isLeast_nextBoundary (h : b.Apart) {n : Nat} (hn : b.nextBoundary offset = some n) :
    IsLeast {m | b.StartsSegment m ∧ offset < m} n := by
  refine ⟨⟨startsSegment_nextBoundary hn, lt_nextBoundary hn⟩, ?_⟩
  obtain ⟨s, hs, rfl⟩ := Option.map_eq_some_iff.mp hn
  obtain ⟨-, before, after, hsplit, hbefore⟩ := List.find?_eq_some_iff_append.mp hs
  rintro m ⟨⟨t, ht, rfl⟩, hlt⟩
  unfold Apart at h
  rw [hsplit] at h ht
  rcases List.mem_append.mp ht with ht | ht
  · have hle := hbefore t ht
    simp only [Bool.not_eq_true', decide_eq_false_iff_not] at hle
    exact absurd hlt hle
  · rcases List.mem_cons.mp ht with rfl | ht
    · exact Nat.le_refl _
    · have hafter := List.rel_of_pairwise_cons (List.pairwise_append.mp h).2.1 ht
      exact Nat.le_trans (Nat.le_add_right _ _) hafter

theorem nextBoundary_eq_none_iff (b : StreamBuffer) (offset : Nat) :
    b.nextBoundary offset = none ↔ ¬ ∃ m, b.StartsSegment m ∧ offset < m := by
  simp only [nextBoundary, Option.map_eq_none_iff, List.find?_eq_none, decide_eq_true_eq]
  constructor
  · rintro hall ⟨m, ⟨s, hs, rfl⟩, hlt⟩
    exact hall s hs hlt
  · exact fun hnone s hs hlt => hnone ⟨_, ⟨s, hs, rfl⟩, hlt⟩

theorem nextBoundary_eq_some_iff (h : b.Apart) {n : Nat} :
    b.nextBoundary offset = some n ↔ IsLeast {m | b.StartsSegment m ∧ offset < m} n := by
  refine ⟨isLeast_nextBoundary h, fun hleast => ?_⟩
  cases hfound : b.nextBoundary offset with
  | none => exact absurd ⟨n, hleast.1⟩ ((b.nextBoundary_eq_none_iff offset).mp hfound)
  | some m => rw [(isLeast_nextBoundary h hfound).unique hleast]

theorem finds_ofPieces (ps : List Piece) (offset : Nat) :
    (ofPieces ps).Finds offset ((ofPieces ps).packetAt offset)
      ((ofPieces ps).nextBoundary offset) where
  inside := cameFrom_packetAt
  outside := packetAt_eq_none_iff ps offset
  next _ := nextBoundary_eq_some_iff (apart_ofPieces ps)
  noNext := nextBoundary_eq_none_iff _ offset

end StreamBuffer

end HttpCapture
