import HttpCapture.Session.Stream
import Mathlib.Data.List.Basic

/-! Where the segments of a stream lie. They follow one another from its start to its end, so that
each byte lies in a single one of them, and looking up a byte gives the packet of this segment. -/

namespace HttpCapture

def StreamSegment.Covers (s : StreamSegment) (offset : Nat) : Prop :=
  s.offset ≤ offset ∧ offset < s.stop

theorem bounds_of_mem_layOut {ps : List Piece} {start : Nat} {s : StreamSegment}
    (hs : s ∈ layOut start ps) :
    start ≤ s.offset ∧ s.stop ≤ start + (ps.flatMap (·.bytes)).length := by
  induction ps generalizing start with
  | nil => cases hs
  | cons p ps ih =>
    rw [List.flatMap_cons, List.length_append]
    rcases List.mem_cons.mp hs with rfl | hs
    · simp only [StreamSegment.stop]
      omega
    · have := ih hs
      omega

theorem layOut_ascending (start : Nat) (ps : List Piece) :
    (layOut start ps).Pairwise fun s t => s.stop ≤ t.offset := by
  induction ps generalizing start with
  | nil => exact .nil
  | cons p ps ih => exact .cons (fun t ht => (bounds_of_mem_layOut ht).1) (ih _)

theorem exists_covers {ps : List Piece} {start offset : Nat} (hle : start ≤ offset)
    (hlt : offset < start + (ps.flatMap (·.bytes)).length) :
    ∃ s ∈ layOut start ps, s.Covers offset := by
  induction ps generalizing start with
  | nil =>
    rw [List.flatMap_nil, List.length_nil] at hlt
    omega
  | cons p ps ih =>
    rw [List.flatMap_cons, List.length_append] at hlt
    by_cases hfirst : offset < start + p.bytes.length
    · exact ⟨_, List.mem_cons_self, hle, hfirst⟩
    · have hrest : start + p.bytes.length ≤ offset := Nat.le_of_not_lt hfirst
      obtain ⟨s, hs, hcovers⟩ := ih hrest (by omega)
      exact ⟨s, List.mem_cons_of_mem _ hs, hcovers⟩

namespace StreamBuffer

def StartsSegment (b : StreamBuffer) (offset : Nat) : Prop := ∃ s ∈ b.segments, s.offset = offset

/-- Just one segment covers the offset, and it is the packet's. -/
def CameFrom (b : StreamBuffer) (offset : Nat) (packet : Option Nat) : Prop :=
  ∃ s ∈ b.segments, s.Covers offset ∧ (∀ t ∈ b.segments, t.Covers offset → t = s) ∧
    packet = some s.packet

variable {b : StreamBuffer} {offset : Nat}

theorem startsSegment_nextBoundary {n : Nat} (h : b.nextBoundary offset = some n) :
    b.StartsSegment n := by
  obtain ⟨s, hs, rfl⟩ := Option.map_eq_some_iff.mp h
  exact ⟨s, List.mem_of_find?_eq_some hs, rfl⟩

theorem find?_of_covers (h : b.segments.Pairwise fun s t => s.stop ≤ t.offset) {s : StreamSegment}
    (hs : s ∈ b.segments) (hcovers : s.Covers offset) :
    b.segments.find? (fun t => offset < t.stop) = some s := by
  obtain ⟨before, after, hsplit⟩ := List.append_of_mem hs
  rw [hsplit] at h ⊢
  refine List.find?_eq_some_iff_append.mpr ⟨by simpa using hcovers.2, before, after, rfl, ?_⟩
  intro t ht
  have hend : t.stop ≤ s.offset := (List.pairwise_append.mp h).2.2 t ht s List.mem_cons_self
  have hstart := hcovers.1
  simp only [Bool.not_eq_true', decide_eq_false_iff_not]
  omega

theorem cameFrom_packetAt {ps : List Piece} (h : offset < (ofPieces ps).length) :
    (ofPieces ps).CameFrom offset ((ofPieces ps).packetAt offset) := by
  have hsorted : (ofPieces ps).segments.Pairwise fun s t => s.stop ≤ t.offset :=
    layOut_ascending 0 ps
  obtain ⟨s, hs, hcovers⟩ : ∃ s ∈ (ofPieces ps).segments, s.Covers offset :=
    exists_covers (Nat.zero_le _) (by rwa [Nat.zero_add])
  have hfind := find?_of_covers hsorted hs hcovers
  refine ⟨s, hs, hcovers, fun t ht htcovers => ?_, ?_⟩
  · exact Option.some.inj ((find?_of_covers hsorted ht htcovers).symm.trans hfind)
  · simp [packetAt, hfind, Option.filter, hcovers.1]

end StreamBuffer

end HttpCapture
