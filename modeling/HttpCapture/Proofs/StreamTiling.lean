import HttpCapture.Proofs.PayloadConservation
import HttpCapture.Proofs.SegmentLookups
import HttpCapture.Proofs.TakenPackets

/-! The segments of a stream follow one another without gaps and each holds the end of one packet's
payload, whatever the payloads are, also where packets contradict one another. Packets come in the
order of their sequence numbers. All of a packet that was taken is there but what another one taken
before it has reached. -/

namespace HttpCapture

/-- Segments that follow one another without gaps from `start` to `stop`, none of them empty. -/
def Tiles : Nat → List StreamSegment → Nat → Prop
  | start, [], stop => start = stop
  | start, s :: rest, stop => s.offset = start ∧ 0 < s.length ∧ Tiles s.stop rest stop

/-- What the buffer holds at a segment. -/
def StreamBuffer.bytesOf (b : StreamBuffer) (s : StreamSegment) : Bytes :=
  (b.bytes.drop s.offset).take s.length

section

variable {ps : List Piece}

theorem tiles_layOut (start : Nat) (h : ∀ p ∈ ps, p.bytes ≠ []) :
    Tiles start (layOut start ps) (start + (ps.flatMap (·.bytes)).length) := by
  induction ps generalizing start with
  | nil => rfl
  | cons p ps ih =>
    have hrest := ih (start + p.bytes.length) fun q hq => h q (List.mem_cons_of_mem _ hq)
    rw [List.flatMap_cons, List.length_append, ← Nat.add_assoc]
    exact ⟨rfl, List.length_pos_iff.mpr (h p List.mem_cons_self), hrest⟩

theorem packets_layOut (start : Nat) (ps : List Piece) :
    (layOut start ps).map (·.packet) = ps.map (·.packet) := by
  induction ps generalizing start with
  | nil => rfl
  | cons p ps ih => exact congrArg _ (ih _)

theorem exists_segment_iff (start : Nat) (ps : List Piece) (holds : Nat → Nat → Prop) :
    (∃ s ∈ layOut start ps, holds s.packet s.length) ↔
      ∃ p ∈ ps, holds p.packet p.bytes.length := by
  induction ps generalizing start with
  | nil => simp [layOut]
  | cons p ps ih => simp only [layOut, List.mem_cons, exists_eq_or_imp, ih]

theorem exists_piece_of_mem_layOut (before : Bytes) {s : StreamSegment}
    (hs : s ∈ layOut before.length ps) :
    ∃ p ∈ ps, p.packet = s.packet ∧ p.bytes.length = s.length ∧
      ((before ++ ps.flatMap (·.bytes)).drop s.offset).take s.length = p.bytes := by
  induction ps generalizing before with
  | nil => cases hs
  | cons p ps ih =>
    rcases List.mem_cons.mp hs with rfl | hs
    · exact ⟨p, List.mem_cons_self, rfl, rfl, by simp⟩
    · rw [← List.length_append] at hs
      obtain ⟨q, hq, hpacket, hlength, hbytes⟩ := ih (before ++ p.bytes) hs
      rw [List.append_assoc, ← List.flatMap_cons] at hbytes
      exact ⟨q, List.mem_cons_of_mem _ hq, hpacket, hlength, hbytes⟩

end

section

variable {ps : List Placed}

theorem takePieces_cons (reached : Nat) (p : Placed) (ps : List Placed) :
    takePieces reached (p :: ps) =
      if p.payload.length ≤ reached - p.position then takePieces reached ps
      else ⟨p.packet, p.payload.drop (reached - p.position)⟩ ::
        takePieces (p.position + p.payload.length) ps := by
  rw [takePieces]
  split
  · next hdrop => rw [if_pos (List.drop_eq_nil_iff.mp hdrop)]
  · next hdrop => rw [if_neg (mt List.drop_eq_nil_iff.mpr hdrop)]

theorem packets_takePieces_sublist (reached : Nat) (ps : List Placed) :
    ((takePieces reached ps).map (·.packet)).Sublist (ps.map (·.packet)) := by
  induction ps generalizing reached with
  | nil => exact .slnil
  | cons p ps ih =>
    rw [takePieces_cons]
    split
    · exact (ih reached).cons _
    · exact (ih _).cons_cons _

theorem exists_placed_of_mem_takePieces {reached : Nat} {piece : Piece}
    (h : piece ∈ takePieces reached ps) :
    ∃ p ∈ ps, p.packet = piece.packet ∧ piece.bytes ≠ [] ∧ piece.bytes <:+ p.payload := by
  induction ps generalizing reached with
  | nil => cases h
  | cons p ps ih =>
    have hrest {r : Nat} (h : piece ∈ takePieces r ps) :
        ∃ q ∈ p :: ps, q.packet = piece.packet ∧ piece.bytes ≠ [] ∧ piece.bytes <:+ q.payload := by
      obtain ⟨q, hq, hpiece⟩ := ih h
      exact ⟨q, List.mem_cons_of_mem _ hq, hpiece⟩
    rw [takePieces_cons] at h
    split at h
    · exact hrest h
    · next hlength =>
      rcases List.mem_cons.mp h with rfl | h
      · exact ⟨p, List.mem_cons_self, rfl, mt List.drop_eq_nil_iff.mp hlength,
          List.drop_suffix _ _⟩
      · exact hrest h

theorem packet_ne_of_mem_takePieces {p : Placed} (hp : p.packet ∉ ps.map (·.packet))
    {reached : Nat} {piece : Piece} (h : piece ∈ takePieces reached ps) :
    piece.packet ≠ p.packet := by
  obtain ⟨q, hq, hpacket, -⟩ := exists_placed_of_mem_takePieces h
  intro heq
  exact hp (List.mem_map.mpr ⟨q, hq, hpacket.trans heq⟩)

theorem takes_first_byte_iff {p : Placed} (hnew : p.packet ∉ ps.map (·.packet)) (reached : Nat)
    {k : Nat} (hk : k < p.payload.length) :
    (∃ piece ∈ takePieces reached (p :: ps), piece.packet = p.packet ∧
        p.payload.length ≤ k + piece.bytes.length) ↔ reached ≤ p.position + k := by
  rw [takePieces_cons]
  split
  · refine iff_of_false ?_ (by omega)
    rintro ⟨piece, hpiece, hpacket, -⟩
    exact packet_ne_of_mem_takePieces hnew hpiece hpacket
  · constructor
    · rintro ⟨piece, hpiece, hpacket, hle⟩
      rcases List.mem_cons.mp hpiece with rfl | hpiece
      · rw [List.length_drop] at hle
        omega
      · exact absurd hpacket (packet_ne_of_mem_takePieces hnew hpiece)
    · intro hreached
      refine ⟨_, List.mem_cons_self, rfl, ?_⟩
      rw [List.length_drop]
      omega

/-- The byte `k` of a payload is taken over just if it lies behind all positions reached before. The
induction is on the payloads in ascending order; each one taken moves `reached` to its end, and one
left out ends no later than `reached`. -/
theorem takes_byte_iff (hsorted : ps.Pairwise fun p q => p.position < q.position)
    (hdistinct : (ps.map (·.packet)).Nodup) (reached : Nat) {p : Placed} (hp : p ∈ ps) {k : Nat}
    (hk : k < p.payload.length) :
    (∃ piece ∈ takePieces reached ps, piece.packet = p.packet ∧
        p.payload.length ≤ k + piece.bytes.length) ↔
      reached ≤ p.position + k ∧
        ∀ q ∈ ps, q.position < p.position → q.position + q.payload.length ≤ p.position + k := by
  induction ps generalizing reached with
  | nil => cases hp
  | cons a ps ih =>
    obtain ⟨hlater, hsorted⟩ := List.pairwise_cons.mp hsorted
    obtain ⟨hnew, hdistinct⟩ := List.nodup_cons.mp hdistinct
    rcases List.mem_cons.mp hp with rfl | hp
    · have hfirst : ∀ q ∈ p :: ps, ¬ q.position < p.position := List.forall_mem_cons.mpr
        ⟨Nat.lt_irrefl _, fun q hq => Nat.lt_asymm (hlater q hq)⟩
      rw [takes_first_byte_iff hnew reached hk]
      exact (and_iff_left fun q hq hlt => absurd hlt (hfirst q hq)).symm
    · have hlt := hlater p hp
      have hne : a.packet ≠ p.packet := fun heq => hnew (List.mem_map.mpr ⟨p, hp, heq.symm⟩)
      rw [List.forall_mem_cons, takePieces_cons]
      split
      · next hlength =>
        -- The payload left out ends where the stream has come to, or before.
        rw [ih hsorted hdistinct reached hp]
        constructor
        · rintro ⟨hreached, hall⟩
          exact ⟨hreached, fun _ => by omega, hall⟩
        · rintro ⟨hreached, -, hall⟩
          exact ⟨hreached, hall⟩
      · next hlength =>
        simp only [List.mem_cons, exists_eq_or_imp, hne, false_and, false_or]
        rw [ih hsorted hdistinct (a.position + a.payload.length) hp]
        constructor
        · rintro ⟨hreached, hall⟩
          exact ⟨by omega, fun _ => hreached, hall⟩
        · rintro ⟨-, hfirst, hall⟩
          exact ⟨hfirst hlt, hall⟩

end

namespace Session

/-- How a buffer is made up of what the packets of a direction carry. -/
structure Tiling (s : Session) (d : Direction) (b : StreamBuffer) : Prop where
  tiles : Tiles 0 b.segments b.length
  /-- A segment holds the end of the payload of a packet of the direction. -/
  suffix : ∀ t ∈ b.segments, ∃ p ∈ s.packets[t.packet]?, ∃ seq payload,
    p.segment? d = some (seq, payload) ∧ (b.bytesOf t).length = t.length ∧ b.bytesOf t <:+ payload
  distinct : (b.segments.map (·.packet)).Nodup
  ascending : b.segments.Pairwise fun t u => ∃ m n, m < n ∧
    IsCandidate s.packets d m t.packet ∧ IsCandidate s.packets d n u.packet
  /-- The byte `k` of a packet taken is there just if no packet taken before it
  has reached its place. -/
  trimmed : s.isTcp = true → ∀ e ∈ s.chosen d, ∀ k < e.2.payload.length,
    (∃ t ∈ b.segments, t.packet = e.2.packet ∧ e.2.payload.length ≤ k + t.length) ↔
      ∀ f ∈ s.chosen d, f.1 < e.1 → f.1.toNat + f.2.payload.length ≤ e.1.toNat + k

/-- The pieces that make up the stream of a direction. -/
def pieces (s : Session) (d : Direction) : List Piece :=
  if s.isTcp then takePieces 0 (s.placed d) else []

theorem buildStream_eq_ofPieces (s : Session) (d : Direction) :
    s.buildStream d = .ofPieces (s.pieces d) := by
  unfold buildStream pieces
  split <;> rfl

variable {s : Session} {d : Direction}

/-- Segments are in the order in which packets are taken. -/
theorem packets_buildStream_sublist (s : Session) (d : Direction) :
    ((s.buildStream d).segments.map (·.packet)).Sublist (s.resolved d) := by
  have hresolved : (s.placed d).map (·.packet) = s.resolved d := by
    rw [placed, List.map_map]
    rfl
  rw [buildStream_eq_ofPieces, StreamBuffer.ofPieces, packets_layOut, pieces]
  split
  · rw [← hresolved]
    exact packets_takePieces_sublist 0 (s.placed d)
  · exact List.nil_sublist _

theorem Indexed.isCandidate_of_mem_chosen (h : s.Indexed) {e : UInt32 × Copy}
    (he : e ∈ s.chosen d) : IsCandidate s.packets d e.1 e.2.packet := by
  obtain ⟨p, hp, hseg⟩ := h.of_mem_chosen he
  exact ⟨p, hp, _, hseg⟩

theorem Indexed.resolved_ascending (h : s.Indexed) (d : Direction) :
    (s.resolved d).Pairwise fun i j => ∃ m n, m < n ∧
      IsCandidate s.packets d m i ∧ IsCandidate s.packets d n j := by
  refine List.pairwise_map.mpr ((h.chosen_ascending d).imp_of_mem fun {e f} he hf hlt => ?_)
  exact ⟨e.1, f.1, hlt, h.isCandidate_of_mem_chosen he, h.isCandidate_of_mem_chosen hf⟩

theorem Indexed.exists_placed_of_mem_pieces (h : s.Indexed) {piece : Piece}
    (hpiece : piece ∈ s.pieces d) : piece.bytes ≠ [] ∧ ∃ p ∈ s.packets[piece.packet]?,
      ∃ seq payload, p.segment? d = some (seq, payload) ∧ piece.bytes <:+ payload := by
  unfold pieces at hpiece
  split at hpiece
  · obtain ⟨x, hx, hpacket, hne, hsuffix⟩ := exists_placed_of_mem_takePieces hpiece
    obtain ⟨⟨seq, c⟩, hc, rfl⟩ := List.mem_map.mp hx
    obtain ⟨p, hp, hseg⟩ := h.of_mem_chosen hc
    exact ⟨hne, p, hpacket ▸ hp, seq, c.payload, hseg, hsuffix⟩
  · cases hpiece

theorem Indexed.trimmed_pieces (h : s.Indexed) (htcp : s.isTcp = true) {e : UInt32 × Copy}
    (he : e ∈ s.chosen d) {k : Nat} (hk : k < e.2.payload.length) :
    (∃ piece ∈ s.pieces d, piece.packet = e.2.packet ∧
        e.2.payload.length ≤ k + piece.bytes.length) ↔
      ∀ f ∈ s.chosen d, f.1 < e.1 → f.1.toNat + f.2.payload.length ≤ e.1.toNat + k := by
  have hdistinct : ((s.placed d).map (·.packet)).Nodup := by
    rw [placed, List.map_map]
    exact h.nodup_chosen d
  have htakes := takes_byte_iff (h.placed_ascending d) hdistinct 0 (List.mem_map_of_mem he) hk
  rw [pieces, if_pos htcp]
  refine htakes.trans ?_
  simp only [placed, List.forall_mem_map, Nat.zero_le, true_and, UInt32.lt_iff_toNat_lt]

theorem Indexed.tiling_buildStream (h : s.Indexed) (d : Direction) :
    s.Tiling d (s.buildStream d) := by
  have hsource := fun piece (hpiece : piece ∈ s.pieces d) => h.exists_placed_of_mem_pieces hpiece
  have hsub := packets_buildStream_sublist s d
  refine ⟨?_, ?_, (h.nodup_chosen d).sublist hsub,
    List.pairwise_map.mp ((h.resolved_ascending d).sublist hsub), ?_⟩ <;>
    rw [buildStream_eq_ofPieces]
  · have htiles := tiles_layOut 0 fun piece hpiece => (hsource piece hpiece).1
    rwa [Nat.zero_add] at htiles
  · intro t ht
    obtain ⟨piece, hpiece, hpacket, hlength, hbytes⟩ := exists_piece_of_mem_layOut [] ht
    obtain ⟨-, p, hp, seq, payload, hseg, hsuffix⟩ := hsource piece hpiece
    have hbytes : (StreamBuffer.ofPieces (s.pieces d)).bytesOf t = piece.bytes := hbytes
    rw [hpacket] at hp
    exact ⟨p, hp, seq, payload, hseg, by rw [hbytes, hlength], by rwa [hbytes]⟩
  · intro htcp e he k hk
    rw [← h.trimmed_pieces htcp he hk]
    exact exists_segment_iff 0 (s.pieces d) fun packet length =>
      packet = e.2.packet ∧ e.2.payload.length ≤ k + length

end Session

/-- Whatever the packets carry, the segments of a stream tile it with the ends of their payloads,
and every look-up is exact, by halving as well as one segment after another. -/
theorem tiling_buildStream_and_finds (key : SessionKey) (kind : TransportKind)
    (ps : List SessionPacket) (d : Direction) :
    let s := Session.ofPackets key kind ps
    let b := s.buildStream d
    s.packets = ps ∧ s.Tiling d b ∧ ∀ offset,
      b.Finds offset (b.packetAt offset) (b.nextBoundary offset) ∧
        b.searchPacketAt offset = b.packetAt offset ∧
          b.searchNextBoundary offset = b.nextBoundary offset := by
  intro s b
  have hs : s.Indexed := Session.indexed_ofPackets key kind ps
  have hb : b = .ofPieces (s.pieces d) := s.buildStream_eq_ofPieces d
  have hapart : b.Apart := hb ▸ StreamBuffer.apart_ofPieces _
  have hpackets : s.packets = ps := Session.packets_ofPackets key kind ps
  refine ⟨hpackets, hs.tiling_buildStream d, fun offset => ⟨?_, ?_, ?_⟩⟩
  · rw [hb]
    exact StreamBuffer.finds_ofPieces _ offset
  · exact StreamBuffer.searchPacketAt_eq hapart offset
  · exact StreamBuffer.searchNextBoundary_eq hapart offset

/-- The packet captured first contradicts the one it follows in sequence. The last one lies within
another and is left out. -/
example :
    let down := SessionPacket.sample .downlink
    let s := Session.ofPackets .sample .tcp
      [down 13 0 [9, 9, 6, 7], down 10 0 [1, 2, 3, 4, 5], down 11 0 [8, 8]]
    s.buildStream .downlink = ⟨[1, 2, 3, 4, 5, 6, 7], [⟨0, 5, 1⟩, ⟨5, 2, 0⟩]⟩ := by
  decide

end HttpCapture
