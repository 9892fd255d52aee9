import HttpCapture.Proofs.ChosenCopies

/-! A stream holds every captured byte once. When the packets of a direction are slices of one text,
the stream is the text at the positions that some packet carries: the position reached so far is the
greatest end of any packet taken, so what is dropped has been taken before and nothing else is. -/

namespace HttpCapture

/-- The bytes of `data` at the positions that satisfy `keep`, ascending. -/
def bytesAt (keep : Nat → Bool) (data : Bytes) : Bytes :=
  (data.zipIdx.filter fun e => keep e.2).map (·.1)

theorem bytesAt_append (keep : Nat → Bool) (xs ys : Bytes) :
    bytesAt keep (xs ++ ys) = bytesAt keep xs ++ bytesAt (fun i => keep (xs.length + i)) ys := by
  unfold bytesAt
  rw [List.zipIdx_append, List.filter_append, List.map_append, Nat.zero_add,
    List.zipIdx_eq_map_add (i := xs.length), List.filter_map, List.map_map]
  simp only [Function.comp_def, Nat.add_comm]

theorem bytesAt_congr {keep keep' : Nat → Bool} (data : Bytes)
    (h : ∀ i < data.length, keep i = keep' i) : bytesAt keep data = bytesAt keep' data := by
  unfold bytesAt
  congr 1
  refine List.filter_congr fun e he => h e.2 ?_
  simpa using (List.mem_zipIdx' he).1

theorem bytesAt_all {keep : Nat → Bool} {data : Bytes} (h : ∀ i < data.length, keep i = true) :
    bytesAt keep data = data := by
  have hkeep : bytesAt keep data = bytesAt (fun _ => true) data := bytesAt_congr data h
  rw [hkeep]
  simp [bytesAt, List.filter_eq_self.mpr]

theorem bytesAt_eq_self_iff {keep : Nat → Bool} {data : Bytes} :
    bytesAt keep data = data ↔ ∀ i < data.length, keep i = true := by
  refine ⟨fun h i hi => ?_, bytesAt_all⟩
  have hlen : (data.zipIdx.filter fun e => keep e.2).length = data.zipIdx.length := by
    rw [List.length_zipIdx, ← List.length_map (fun e : UInt8 × Nat => e.1)]
    exact congrArg List.length h
  rw [List.length_filter_eq_length_iff] at hlen
  exact hlen (data[i], i) (List.mem_zipIdx_iff_getElem?.mpr (List.getElem?_eq_getElem hi))

theorem bytesAt_none {keep : Nat → Bool} (data : Bytes) (h : ∀ i < data.length, keep i = false) :
    bytesAt keep data = [] := by
  have hkeep : bytesAt keep data = bytesAt (fun _ => false) data := bytesAt_congr data h
  rw [hkeep]
  simp [bytesAt]

/-- A run of kept positions comes out as one slice, with nothing in front of it. -/
theorem bytesAt_eq_slice_append {keep later : Nat → Bool} {data : Bytes} {lo hi : Nat}
    (hlo : lo ≤ hi) (hhi : hi ≤ data.length) (hbelow : ∀ i < lo, keep i = false)
    (hrun : ∀ i, lo ≤ i → i < hi → keep i = true) (habove : ∀ i, hi ≤ i → keep i = later i)
    (hlater : ∀ i < hi, later i = false) :
    bytesAt keep data = (data.drop lo).take (hi - lo) ++ bytesAt later data := by
  obtain ⟨xs, ys, zs, rfl, rfl, hys⟩ :
      ∃ xs ys zs, data = xs ++ (ys ++ zs) ∧ xs.length = lo ∧ ys.length = hi - lo := by
    refine ⟨data.take lo, (data.drop lo).take (hi - lo), (data.drop lo).drop (hi - lo), ?_, ?_, ?_⟩
    · rw [List.take_append_drop, List.take_append_drop]
    · simp
      omega
    · simp
      omega
  have hslice : ((xs ++ (ys ++ zs)).drop xs.length).take (hi - xs.length) = ys := by
    rw [List.drop_left, ← hys, List.take_left]
  rw [hslice]
  simp only [bytesAt_append]
  rw [bytesAt_none xs hbelow, bytesAt_none xs fun i hi' => hlater i (by omega),
    bytesAt_all fun i hi' => hrun _ (by omega) (by omega),
    bytesAt_none ys fun i hi' => hlater _ (by omega),
    bytesAt_congr zs fun i _ => habove _ (by omega)]
  simp

def Placed.holds (position : Nat) (p : Placed) : Bool :=
  p.position ≤ position && position < p.position + p.payload.length

/-- A payload is a slice of `data`, which begins at `base`. -/
def Placed.IsSlice (base : Nat) (data : Bytes) (p : Placed) : Prop :=
  base ≤ p.position ∧ p.payload = (data.drop (p.position - base)).take p.payload.length

theorem Placed.IsSlice.stop_le {base : Nat} {data : Bytes} {p : Placed} (h : p.IsSlice base data)
    (hne : p.payload ≠ []) : p.position + p.payload.length ≤ base + data.length := by
  have hlen := congrArg List.length h.2
  have := List.length_pos_iff.mpr hne
  have := h.1
  simp only [List.length_take, List.length_drop] at hlen
  omega

theorem Placed.IsSlice.drop {base : Nat} {data : Bytes} {p : Placed} (h : p.IsSlice base data)
    (n : Nat) : p.payload.drop n =
      (data.drop (p.position - base + n)).take (p.payload.length - n) := by
  rw [congrArg (List.drop n) h.2, List.drop_take, List.drop_drop]

/-- What is taken from position `reached` on is exactly what lies there and is held by some payload.
The induction is on the payloads in ascending order; each one taken moves `reached` to its end. -/
theorem takePieces_holds {base : Nat} {data : Bytes} (ps : List Placed) (reached : Nat)
    (hsorted : ps.Pairwise fun p q => p.position < q.position)
    (hslice : ∀ p ∈ ps, p.IsSlice base data) :
    (takePieces reached ps).flatMap (·.bytes) =
      bytesAt (fun i => reached ≤ base + i && ps.any (·.holds (base + i))) data := by
  induction ps generalizing reached with
  | nil => simp [takePieces, bytesAt_none]
  | cons p ps ih =>
    have hlater := (List.pairwise_cons.mp hsorted).1
    have hp := hslice p List.mem_cons_self
    have ih := fun r => ih r (List.pairwise_cons.mp hsorted).2
      fun q hq => hslice q (List.mem_cons_of_mem _ hq)
    unfold takePieces
    split
    · next hdrop =>
      rw [ih]
      refine bytesAt_congr _ fun i _ => ?_
      have hlen := congrArg List.length hdrop
      simp only [List.length_drop, List.length_nil] at hlen
      by_cases hr : reached ≤ base + i
      · have hno : p.holds (base + i) = false := by
          simp only [Placed.holds, Bool.and_eq_false_iff, decide_eq_false_iff_not]
          omega
        simp [hno]
      · simp [hr]
    · next hdrop =>
      have hne : p.payload ≠ [] := fun he => hdrop (by simp [he])
      have hlen : reached - p.position < p.payload.length := by
        refine Nat.lt_of_not_le fun hle => hdrop (List.drop_of_length_le hle)
      have hbase := hp.1
      have hstop := hp.stop_le hne
      rw [List.flatMap_cons, ih, hp.drop]
      have hsize : p.payload.length - (reached - p.position) =
          p.position - base + p.payload.length - (p.position - base + (reached - p.position)) := by
        omega
      rw [hsize]
      refine (bytesAt_eq_slice_append (by omega) (by omega) ?_ ?_ ?_ ?_).symm
      · intro i hi
        by_cases hr : reached ≤ base + i
        · have hno : p.holds (base + i) = false := by
            simp only [Placed.holds, Bool.and_eq_false_iff, decide_eq_false_iff_not]
            omega
          have hnone : ps.any (·.holds (base + i)) = false := by
            refine List.any_eq_false.mpr fun q hq => ?_
            have := hlater q hq
            simp only [Placed.holds, Bool.and_eq_true, decide_eq_true_eq]
            omega
          simp [hno, hnone]
        · simp [hr]
      · intro i hlo hhi
        have hyes : p.holds (base + i) = true := by
          simp only [Placed.holds, Bool.and_eq_true, decide_eq_true_eq]
          omega
        have hr : reached ≤ base + i := by omega
        simp [hyes, hr]
      · intro i hhi
        have hno : p.holds (base + i) = false := by
          simp only [Placed.holds, Bool.and_eq_false_iff, decide_eq_false_iff_not]
          omega
        have hr : reached ≤ base + i := by omega
        have hs : p.position + p.payload.length ≤ base + i := by omega
        simp [hno, hr, hs]
      · intro i hhi
        have hs : ¬ p.position + p.payload.length ≤ base + i := by omega
        simp [hs]

namespace SessionPacket

def carries (d : Direction) (position : Nat) (p : SessionPacket) : Bool :=
  (p.segment? d).any fun s => s.1.toNat ≤ position && position < s.1.toNat + s.2.length

theorem carries_iff {d : Direction} {position : Nat} {p : SessionPacket} :
    p.carries d position = true ↔ ∃ seq bytes, p.segment? d = some (seq, bytes) ∧
      seq.toNat ≤ position ∧ position < seq.toNat + bytes.length := by
  simp only [carries, Option.any_eq_true, Prod.exists, Bool.and_eq_true, decide_eq_true_eq]

/-- The payload of a packet is a slice of `data`, which begins at `base`; other packets do not
count. -/
def IsSlice (d : Direction) (base : Nat) (data : Bytes) (p : SessionPacket) : Prop :=
  ∀ s ∈ p.segment? d, base ≤ s.1.toNat ∧ s.2 = (data.drop (s.1.toNat - base)).take s.2.length

instance (d : Direction) (base : Nat) (data : Bytes) (p : SessionPacket) :
    Decidable (p.IsSlice d base data) := by
  unfold IsSlice
  infer_instance

def SameLength (d : Direction) (p q : SessionPacket) : Prop :=
  ∀ s ∈ p.segment? d, ∀ t ∈ q.segment? d, s.1 = t.1 → s.2.length = t.2.length

instance (d : Direction) (p q : SessionPacket) : Decidable (p.SameLength d q) := by
  unfold SameLength
  infer_instance

end SessionPacket

namespace Session

def placed (s : Session) (d : Direction) : List Placed :=
  (s.chosen d).map fun e => ⟨e.2.packet, e.1.toNat, e.2.payload⟩

theorem buildStream_eq_placed {s : Session} (h : s.isTcp = true) (d : Direction) :
    s.buildStream d = .ofPlaced (s.placed d) := by
  simp [buildStream, placed, h]

theorem Indexed.placed_ascending {s : Session} (h : s.Indexed) (d : Direction) :
    (s.placed d).Pairwise fun p q => p.position < q.position :=
  List.pairwise_map.mpr ((h.chosen_ascending d).imp UInt32.lt_iff_toNat_lt.mp)

theorem Indexed.of_mem_placed {s : Session} (h : s.Indexed) {d : Direction} {x : Placed}
    (hx : x ∈ s.placed d) :
    ∃ p ∈ s.packets, ∃ seq, p.segment? d = some (seq, x.payload) ∧ x.position = seq.toNat := by
  obtain ⟨⟨seq, c⟩, hc, rfl⟩ := List.mem_map.mp hx
  obtain ⟨p, hp, hseg⟩ := h.of_mem_chosen hc
  exact ⟨p, List.mem_of_getElem? hp, seq, hseg, rfl⟩

theorem Indexed.placed_ne_nil {s : Session} (h : s.Indexed) {d : Direction} :
    ∀ x ∈ s.placed d, x.payload ≠ [] := by
  intro x hx
  obtain ⟨p, _, seq, hseg, _⟩ := h.of_mem_placed hx
  exact (SessionPacket.segment?_eq_some.mp hseg).2.2

theorem Indexed.placed_isSlice {s : Session} (h : s.Indexed) {d : Direction} {data : Bytes}
    {base : Nat} (hslice : ∀ p ∈ s.packets, p.IsSlice d base data) :
    ∀ x ∈ s.placed d, x.IsSlice base data := by
  intro x hx
  obtain ⟨p, hp, seq, hseg, hpos⟩ := h.of_mem_placed hx
  unfold Placed.IsSlice
  rw [hpos]
  exact hslice p hp _ hseg

/-- Where copies of one start have one length, it does not matter which of them is chosen. -/
theorem Indexed.any_holds_eq_any_carries {s : Session} (h : s.Indexed) {d : Direction}
    (hlength : ∀ p ∈ s.packets, ∀ q ∈ s.packets, p.SameLength d q) (x : Nat) :
    (s.placed d).any (·.holds x) = s.packets.any (·.carries d x) := by
  rw [Bool.eq_iff_iff, List.any_eq_true, List.any_eq_true]
  constructor
  · rintro ⟨y, hy, hx⟩
    obtain ⟨p, hp, seq, hseg, hpos⟩ := h.of_mem_placed hy
    refine ⟨p, hp, ?_⟩
    rw [Placed.holds, hpos] at hx
    rw [SessionPacket.carries, hseg]
    exact hx
  · rintro ⟨p, hp, hx⟩
    cases hseg : p.segment? d with
    | none => simp [SessionPacket.carries, hseg] at hx
    | some seg =>
      obtain ⟨c, hc⟩ := h.exists_chosen hp hseg
      obtain ⟨q, hq, hqseg⟩ := h.of_mem_chosen hc
      have hlen : seg.2.length = c.payload.length :=
        hlength p hp q (List.mem_of_getElem? hq) seg hseg _ hqseg rfl
      refine ⟨_, List.mem_map_of_mem hc, ?_⟩
      rw [SessionPacket.carries, hseg, Option.any_some, hlen] at hx
      exact hx

/-- The stream is the text at the positions that the copies taken hold. -/
theorem Indexed.bytes_buildStream {s : Session} (h : s.Indexed) (htcp : s.isTcp = true)
    {d : Direction} {data : Bytes} {base : Nat} (hslice : ∀ p ∈ s.packets, p.IsSlice d base data) :
    (s.buildStream d).bytes =
      bytesAt (fun i => (s.placed d).any (·.holds (base + i))) data := by
  rw [buildStream_eq_placed htcp]
  unfold StreamBuffer.ofPlaced StreamBuffer.ofPieces
  dsimp only
  rw [takePieces_holds _ 0 (h.placed_ascending d) (h.placed_isSlice hslice)]
  simp

end Session

/-- Whatever the order of capture, and however often, overlapping or with holes the packets of a
direction repeat a text, its stream is the text at the positions that were captured. -/
theorem buildStream_bytes_eq_bytesAt (key : SessionKey) (ps : List SessionPacket) (d : Direction)
    (data : Bytes) (base : Nat) (hslice : ∀ p ∈ ps, p.IsSlice d base data)
    (hlength : ∀ p ∈ ps, ∀ q ∈ ps, p.SameLength d q) :
    ((Session.ofPackets key .tcp ps).buildStream d).bytes =
      bytesAt (fun i => ps.any (·.carries d (base + i))) data := by
  have hs := Session.indexed_ofPackets key .tcp ps
  have hpackets := Session.packets_ofPackets key .tcp ps
  rw [← hpackets] at hslice hlength
  rw [Session.buildStream_eq_placed (Session.isTcp_ofPackets key ps)]
  unfold StreamBuffer.ofPlaced StreamBuffer.ofPieces
  dsimp only
  rw [takePieces_holds _ 0 (hs.placed_ascending d) (hs.placed_isSlice hslice)]
  refine bytesAt_congr _ fun i _ => ?_
  rw [hs.any_holds_eq_any_carries hlength, hpackets]
  simp

/-- Six packets out of order, the last bytes at the very end of the sequence numbers: one is sent
twice, one overlaps its neighbours, one carries nothing, and the byte 8 was never captured. -/
theorem buildStream_bytes_of_scattered :
    let up := SessionPacket.sample .uplink
    let ps :=
      [up 4294967290 0 [4, 5, 6, 7], up 4294967286 0 [0, 1, 2], up 4294967290 0 [4, 5, 6, 7],
        SessionPacket.sample .downlink 7 0 [9, 9], up 4294967288 0 [2, 3, 4, 5],
        up 4294967295 0 [9], up 4294967290 0 []]
    let data : Bytes := [0, 1, 2, 3, 4, 5, 6, 7, 8, 9]
    (∀ p ∈ ps, p.IsSlice .uplink 4294967286 data) ∧
      (∀ p ∈ ps, ∀ q ∈ ps, p.SameLength .uplink q) ∧
      ((Session.ofPackets .sample .tcp ps).buildStream .uplink).bytes =
        [0, 1, 2, 3, 4, 5, 6, 7, 9] := by
  intro up ps data
  have hslice : ∀ p ∈ ps, p.IsSlice .uplink 4294967286 data := by decide
  have hlength : ∀ p ∈ ps, ∀ q ∈ ps, p.SameLength .uplink q := by decide
  refine ⟨hslice, hlength, ?_⟩
  rw [buildStream_bytes_eq_bytesAt .sample ps .uplink data 4294967286 hslice hlength]
  decide

end HttpCapture
