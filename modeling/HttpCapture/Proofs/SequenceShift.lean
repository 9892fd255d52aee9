import HttpCapture.Proofs.AcknowledgedChains
import HttpCapture.Proofs.StreamCoverage
import Mathlib.Data.List.Find

/-! Streams under other initial sequence numbers. The choice among copies counts modulo 2^32
and does not see where the numbers begin. The order of the stream goes by the numbers as
they are: it stays the same exactly when adding a constant takes all of the payloads past
2^32 or none of them. -/

namespace HttpCapture

/-- The packet with `k.uplink` added to the numbers that count bytes on their way up, and
`k.downlink` to those that count bytes on their way down. -/
def SessionPacket.renumber (k : Sides UInt32) (p : SessionPacket) : SessionPacket :=
  { p with packet := { p.packet with transport :=
    match p.packet.transport with
    | .tcp info => .tcp { info with
        seq := info.seq + k.get p.direction
        ack := info.ack + if p.direction = .downlink then k.uplink else k.downlink }
    | .udp => .udp } }

/-- Adding `k` takes all or none of the payloads of a direction past 2^32. -/
def KeepsOrder (ps : List SessionPacket) (d : Direction) (k : UInt32) : Prop :=
  (∀ p ∈ ps, ∀ s ∈ p.segment? d, s.1.toNat + k.toNat < 4294967296) ∨
    ∀ p ∈ ps, ∀ s ∈ p.segment? d, 4294967296 ≤ s.1.toNat + k.toNat

namespace SessionPacket

variable {k : Sides UInt32} {p : SessionPacket} {d : Direction}

theorem segment?_renumber (k : Sides UInt32) (p : SessionPacket) (d : Direction) :
    (p.renumber k).segment? d = (p.segment? d).map fun s => (s.1 + k.get d, s.2) := by
  unfold segment? renumber Packet.tcp?
  by_cases hd : p.direction.sameSide d
  · cases ht : p.packet.transport with
    | udp => simp
    | tcp info =>
      by_cases hp : p.packet.payload.isEmpty
      · simp [hp]
      · simp [hp, hd, k.get_of_sameSide hd]
  · simp [hd]

theorem startsAt_renumber (k : Sides UInt32) (p : SessionPacket) (d : Direction) (seq : UInt32) :
    (p.renumber k).startsAt d (seq + k.get d) = p.startsAt d seq := by
  unfold startsAt renumber Packet.tcp?
  by_cases hd : p.direction.sameSide d
  · cases p.packet.transport with
    | udp => rfl
    | tcp info => simp [hd, k.get_of_sameSide hd]
  · simp [hd]

theorem ack?_renumber (k : Sides UInt32) (p : SessionPacket) (hd : d ≠ .unknown) :
    (p.renumber k).ack? d.opposite = (p.ack? d.opposite).map (· + k.get d) := by
  unfold ack? renumber Packet.tcp?
  by_cases hs : p.direction.sameSide d.opposite
  · cases p.packet.transport with
    | udp => simp
    | tcp info =>
      have hk : (if p.direction = .downlink then k.uplink else k.downlink) = k.get d := by
        cases hp : p.direction <;> cases d <;>
          simp_all [Direction.sameSide, Direction.opposite, Sides.get]
      by_cases hack : info.flags.ack <;> simp [hs, hack, hk]
  · simp [hs]

end SessionPacket

theorem seqAfter_add_right (seq k : UInt32) (n : Nat) :
    seqAfter (seq + k) n = seqAfter seq n + k := by
  simp only [seqAfter, UInt32.add_assoc, UInt32.add_comm k]

theorem leadsToAck_renumber (k : Sides UInt32) (ps : List SessionPacket) {d : Direction}
    (hd : d ≠ .unknown) (x : UInt32) :
    LeadsToAck (ps.map (·.renumber k)) d (x + k.get d) ↔ LeadsToAck ps d x := by
  constructor
  · intro h
    generalize hy : x + k.get d = y at h
    induction h generalizing x with
    | acked hmem hack =>
      obtain ⟨p, hp, rfl⟩ := List.mem_map.mp hmem
      rw [p.ack?_renumber k hd, ← hy, Option.map_eq_some_iff] at hack
      obtain ⟨a, hack, ha⟩ := hack
      obtain rfl := UInt32.add_left_inj _ |>.mp ha
      exact .acked hp hack
    | onward hmem hseg _ ih =>
      obtain ⟨p, hp, rfl⟩ := List.mem_map.mp hmem
      rw [p.segment?_renumber k, ← hy, Option.map_eq_some_iff] at hseg
      obtain ⟨⟨seq, bytes⟩, hseg, he⟩ := hseg
      obtain ⟨hs, rfl⟩ := Prod.mk.inj he
      obtain rfl := UInt32.add_left_inj _ |>.mp hs
      exact .onward hp hseg (ih _ (by rw [← hy, seqAfter_add_right]))
  · intro h
    induction h with
    | @acked x p hp hack =>
      refine .acked (List.mem_map_of_mem hp) ?_
      rw [p.ack?_renumber k hd, hack]
      rfl
    | @onward x p bytes hp hseg _ ih =>
      have hmoved : (p.renumber k).segment? d = some (x + k.get d, bytes) := by
        rw [p.segment?_renumber k, hseg]
        rfl
      exact .onward (List.mem_map_of_mem hp) hmoved (by rwa [seqAfter_add_right])

/-- Where the order is kept, adding `k` moves all payloads by one distance. -/
theorem KeepsOrder.exists_offset {ps : List SessionPacket} {d : Direction} {k : UInt32}
    (h : KeepsOrder ps d k) :
    ∃ w, ∀ p ∈ ps, ∀ s ∈ p.segment? d, (s.1 + k).toNat + w = s.1.toNat + k.toNat := by
  rcases h with h | h
  · refine ⟨0, fun p hp s hs => ?_⟩
    rw [UInt32.toNat_add, Nat.mod_eq_of_lt (h p hp s hs), Nat.add_zero]
  · refine ⟨4294967296, fun p hp s hs => ?_⟩
    have hle := h p hp s hs
    have hs := s.1.toNat_lt
    have hk := k.toNat_lt
    rw [UInt32.toNat_add]
    omega

/-- If the least number is still the least after adding `k`, it wraps only
together with all others. -/
theorem KeepsOrder.of_least {ps : List SessionPacket} {d : Direction} {k : UInt32} (q : UInt32)
    (h : ∀ p ∈ ps, ∀ s ∈ p.segment? d,
      q.toNat ≤ s.1.toNat ∧ (q + k).toNat ≤ (s.1 + k).toNat) : KeepsOrder ps d k := by
  by_cases hwrap : 4294967296 ≤ q.toNat + k.toNat
  · refine .inr fun p hp s hs => ?_
    have := (h p hp s hs).1
    omega
  · refine .inl fun p hp s hs => Nat.lt_of_not_le fun hle => ?_
    have hlow := (h p hp s hs).2
    have hlt := s.1.toNat_lt
    rw [UInt32.toNat_add, UInt32.toNat_add] at hlow
    omega

theorem eq_of_ascending {α : Type} {l l' : List (UInt32 × α)} (h : l.Pairwise fun a b => a.1 < b.1)
    (h' : l'.Pairwise fun a b => a.1 < b.1) (hmem : ∀ e, e ∈ l ↔ e ∈ l') : l = l' := by
  have hne {a b : UInt32 × α} (hlt : a.1 < b.1) : a ≠ b := fun he =>
    UInt32.lt_irrefl b.1 (he ▸ hlt)
  refine List.Perm.eq_of_pairwise ?_ h h'
    ((List.perm_ext_iff_of_nodup (h.imp hne) (h'.imp hne)).mpr hmem)
  intro a b _ _ hab hba
  exact absurd (UInt32.lt_trans hab hba) (UInt32.lt_irrefl _)

theorem chooseCopy_congr {acks acks' : AckSet} {next next' : Continuations} {seq seq' : UInt32}
    {copies : List Copy}
    (h : ∀ c ∈ copies, reachesAck acks' next' [seqAfter seq' c.payload.length] =
      reachesAck acks next [seqAfter seq c.payload.length]) :
    chooseCopy acks' next' seq' copies = chooseCopy acks next seq copies := by
  unfold chooseCopy
  split
  · rfl
  · rfl
  · congr 1
    exact List.find?_congr h

namespace Session

section

variable (key : SessionKey) (kind : TransportKind) (ps : List SessionPacket) (k : Sides UInt32)

theorem placesAt_renumber (d : Direction) (seq : UInt32) :
    placesAt (ps.map (·.renumber k)) d (seq + k.get d) = placesAt ps d seq := by
  simp [placesAt, List.zipIdx_map, List.filter_map, Function.comp_def,
    SessionPacket.startsAt_renumber]

theorem copy?_renumber (i : Nat) :
    (ofPackets key kind (ps.map (·.renumber k))).copy? i = (ofPackets key kind ps).copy? i := by
  unfold copy?
  rw [packets_ofPackets, packets_ofPackets, List.getElem?_map]
  cases ps[i]? <;> rfl

theorem mem_copies_renumber (d : Direction) (seq : UInt32) (copies : List Copy) :
    (seq + k.get d, copies) ∈ (ofPackets key kind (ps.map (·.renumber k))).copies d ↔
      (seq, copies) ∈ (ofPackets key kind ps).copies d := by
  rw [(indexed_ofPackets key kind _).mem_copies, (indexed_ofPackets key kind ps).mem_copies]
  simp only [packets_ofPackets, placesAt_renumber, copy?_renumber]

theorem mem_chosen_renumber {d : Direction} (hd : d ≠ .unknown) (seq : UInt32) (c : Copy) :
    (seq + k.get d, c) ∈ (ofPackets key kind (ps.map (·.renumber k))).chosen d ↔
      (seq, c) ∈ (ofPackets key kind ps).chosen d := by
  have h := mirrors_ofPackets key kind ps
  have h' := mirrors_ofPackets key kind (ps.map (·.renumber k))
  rw [mem_chosen, mem_chosen]
  refine exists_congr fun copies => and_congr (mem_copies_renumber key kind ps k d seq copies) ?_
  rw [chooseCopy_congr fun c _ => ?_]
  rw [Bool.eq_iff_iff, h.reachesAck_iff, h'.reachesAck_iff, packets_ofPackets, packets_ofPackets,
    seqAfter_add_right, leadsToAck_renumber k ps hd]

theorem chosen_renumber {d : Direction} (hd : d ≠ .unknown) (hkeeps : KeepsOrder ps d (k.get d)) :
    (ofPackets key kind (ps.map (·.renumber k))).chosen d =
      ((ofPackets key kind ps).chosen d).map fun e => (e.1 + k.get d, e.2) := by
  have h := indexed_ofPackets key kind ps
  obtain ⟨w, hw⟩ := hkeeps.exists_offset
  refine eq_of_ascending ((indexed_ofPackets key kind _).chosen_ascending d) ?_ ?_
  · refine List.pairwise_map.mpr ((h.chosen_ascending d).imp_of_mem fun {a b} ha hb hlt => ?_)
    obtain ⟨p, hp, hseg⟩ := h.of_mem_chosen ha
    obtain ⟨q, hq, hseg'⟩ := h.of_mem_chosen hb
    rw [packets_ofPackets] at hp hq
    have ha := hw p (List.mem_of_getElem? hp) _ hseg
    have hb := hw q (List.mem_of_getElem? hq) _ hseg'
    rw [UInt32.lt_iff_toNat_lt] at hlt ⊢
    dsimp only at ha hb ⊢
    omega
  · rintro ⟨seq, c⟩
    obtain ⟨x, rfl⟩ : ∃ x, x + k.get d = seq := ⟨seq - k.get d, UInt32.sub_add_cancel _ _⟩
    rw [mem_chosen_renumber key kind ps k hd]
    simp

end

end Session

/-- What is taken depends on the differences of the positions only. -/
theorem takePieces_move (move : Placed → Nat) (ps : List Placed) (r r' : Nat)
    (hr : ∀ p ∈ ps, r' - move p = r - p.position)
    (hmove : ∀ p ∈ ps, ∀ q ∈ ps, move p + q.position = move q + p.position) :
    takePieces r' (ps.map fun p => { p with position := move p }) = takePieces r ps := by
  induction ps generalizing r r' with
  | nil => rfl
  | cons p ps ih =>
    have hp := hr p List.mem_cons_self
    have ih := fun r r' hr => ih r r' hr
      fun a ha b hb => hmove a (List.mem_cons_of_mem _ ha) b (List.mem_cons_of_mem _ hb)
    simp only [List.map_cons, takePieces]
    rw [hp]
    split
    · exact ih r r' fun q hq => hr q (List.mem_cons_of_mem _ hq)
    · refine congrArg _ (ih _ _ fun q hq => ?_)
      have := hmove p List.mem_cons_self q (List.mem_cons_of_mem _ hq)
      omega

theorem StreamBuffer.head?_segments_ofPlaced {ps : List Placed} (h : ∀ p ∈ ps, p.payload ≠ []) :
    (StreamBuffer.ofPlaced ps).segments.head?.map (·.packet) = ps.head?.map (·.packet) := by
  cases ps with
  | nil => rfl
  | cons p ps =>
    have hp := h p List.mem_cons_self
    simp only [ofPlaced, ofPieces, takePieces, Nat.zero_sub, List.drop_zero]
    rfl

theorem le_of_mem_ascending {α : Type} {l : List (UInt32 × α)} {first e : UInt32 × α}
    {rest : List (UInt32 × α)} (h : l.Pairwise fun a b => a.1 < b.1) (hl : l = first :: rest)
    (he : e ∈ l) : first.1.toNat ≤ e.1.toNat := by
  subst hl
  rcases List.mem_cons.mp he with rfl | he
  · exact Nat.le_refl _
  · exact Nat.le_of_lt (UInt32.lt_iff_toNat_lt.mp ((List.pairwise_cons.mp h).1 e he))

namespace Session

section

variable (key : SessionKey) (ps : List SessionPacket) (k : Sides UInt32) {d : Direction}

theorem buildStream_renumber (hd : d ≠ .unknown) (hkeeps : KeepsOrder ps d (k.get d)) :
    (ofPackets key .tcp (ps.map (·.renumber k))).buildStream d =
      (ofPackets key .tcp ps).buildStream d := by
  have h := indexed_ofPackets key .tcp ps
  obtain ⟨w, hw⟩ := hkeeps.exists_offset
  rw [buildStream_eq_placed (isTcp_ofPackets key _), buildStream_eq_placed (isTcp_ofPackets key _)]
  unfold StreamBuffer.ofPlaced
  congr 1
  have hplaced : (ofPackets key .tcp (ps.map (·.renumber k))).placed d =
      ((ofPackets key .tcp ps).placed d).map fun p =>
        { p with position := p.position + (k.get d).toNat - w } := by
    unfold placed
    rw [chosen_renumber key .tcp ps k hd hkeeps, List.map_map, List.map_map]
    refine List.map_congr_left fun e he => ?_
    obtain ⟨p, hp, hseg⟩ := h.of_mem_chosen he
    rw [packets_ofPackets] at hp
    have := hw p (List.mem_of_getElem? hp) _ hseg
    simp only [Function.comp_apply, Placed.mk.injEq, and_true, true_and]
    dsimp only at this
    omega
  rw [hplaced]
  refine takePieces_move _ _ 0 0 (by simp) fun x hx y hy => ?_
  obtain ⟨p, hp, seq, hseg, hpos⟩ := h.of_mem_placed hx
  obtain ⟨q, hq, seq', hseg', hpos'⟩ := h.of_mem_placed hy
  rw [packets_ofPackets] at hp hq
  have hx := hw p hp _ hseg
  have hy := hw q hq _ hseg'
  dsimp only at hx hy
  omega

theorem first_renumber {q q' : UInt32} {c c' : Copy} {rest rest' : List (UInt32 × Copy)}
    (h : (ofPackets key .tcp (ps.map (·.renumber k))).buildStream d =
      (ofPackets key .tcp ps).buildStream d)
    (hfirst : (ofPackets key .tcp ps).chosen d = (q, c) :: rest)
    (hfirst' : (ofPackets key .tcp (ps.map (·.renumber k))).chosen d = (q', c') :: rest') :
    q' = q + k.get d := by
  have hs := indexed_ofPackets key .tcp ps
  have ht := indexed_ofPackets key .tcp (ps.map (·.renumber k))
  have hpacket : c'.packet = c.packet := by
    have hhead := congrArg (fun b => b.segments.head?.map (·.packet)) h
    simp only [buildStream_eq_placed (isTcp_ofPackets key _),
      StreamBuffer.head?_segments_ofPlaced hs.placed_ne_nil,
      StreamBuffer.head?_segments_ofPlaced ht.placed_ne_nil] at hhead
    simpa [placed, hfirst, hfirst'] using hhead
  obtain ⟨p, hp, hseg⟩ := hs.of_mem_chosen (hfirst ▸ List.mem_cons_self)
  obtain ⟨p', hp', hseg'⟩ := ht.of_mem_chosen (hfirst' ▸ List.mem_cons_self)
  rw [packets_ofPackets] at hp hp'
  rw [hpacket, List.getElem?_map, hp] at hp'
  obtain rfl := Option.some.inj hp'
  rw [p.segment?_renumber k, hseg] at hseg'
  exact (Prod.mk.inj (Option.some.inj hseg')).1.symm

theorem keepsOrder_of_buildStream_renumber (hd : d ≠ .unknown)
    (h : (ofPackets key .tcp (ps.map (·.renumber k))).buildStream d =
      (ofPackets key .tcp ps).buildStream d) : KeepsOrder ps d (k.get d) := by
  have hs := indexed_ofPackets key .tcp ps
  have ht := indexed_ofPackets key .tcp (ps.map (·.renumber k))
  have hmem := mem_chosen_renumber key .tcp ps k hd
  have hpackets := packets_ofPackets key .tcp ps
  cases hfirst : (ofPackets key .tcp ps).chosen d with
  | nil =>
    refine .inl fun p hp seg hseg => ?_
    obtain ⟨c, hc⟩ := hs.exists_chosen (hpackets.symm ▸ hp) hseg
    simp [hfirst] at hc
  | cons first rest =>
    obtain ⟨q, c⟩ := first
    cases hfirst' : (ofPackets key .tcp (ps.map (·.renumber k))).chosen d with
    | nil =>
      have hc := (hmem q c).mpr (hfirst ▸ List.mem_cons_self)
      simp [hfirst'] at hc
    | cons first' rest' =>
      obtain ⟨q', c'⟩ := first'
      have hq := first_renumber key ps k h hfirst hfirst'
      refine .of_least q fun p hp seg hseg => ?_
      obtain ⟨b, hb⟩ := hs.exists_chosen (hpackets.symm ▸ hp) hseg
      exact ⟨le_of_mem_ascending (hs.chosen_ascending d) hfirst hb,
        hq ▸ le_of_mem_ascending (ht.chosen_ascending d) hfirst' ((hmem _ _).mpr hb)⟩

end

end Session

/-- Adding a constant to the numbers of a direction, and to the other side's acknowledgements of
them, leaves the bytes and segments of its stream as they are exactly when it takes all or none of
its payloads past 2^32. -/
theorem buildStream_renumber_iff (key : SessionKey) (ps : List SessionPacket) (k : Sides UInt32) :
    ((Session.ofPackets key .tcp (ps.map (·.renumber k))).buildStream .uplink =
        (Session.ofPackets key .tcp ps).buildStream .uplink ↔ KeepsOrder ps .uplink k.uplink) ∧
      ((Session.ofPackets key .tcp (ps.map (·.renumber k))).buildStream .downlink =
        (Session.ofPackets key .tcp ps).buildStream .downlink ↔
          KeepsOrder ps .downlink k.downlink) := by
  have h (d : Direction) (hd : d ≠ .unknown) :
      (Session.ofPackets key .tcp (ps.map (·.renumber k))).buildStream d =
        (Session.ofPackets key .tcp ps).buildStream d ↔ KeepsOrder ps d (k.get d) :=
    ⟨Session.keepsOrder_of_buildStream_renumber key ps k hd,
      Session.buildStream_renumber key ps k hd⟩
  exact ⟨h .uplink (by decide), h .downlink (by decide)⟩

/-- Eight bytes in two packets, moved so that the second one starts at zero. -/
theorem buildStream_renumber_wrapping :
    let ps := [SessionPacket.sample .uplink 100 0 [0, 1, 2, 3],
      SessionPacket.sample .uplink 104 0 [4, 5, 6, 7]]
    let k : Sides UInt32 := ⟨4294967192, 0⟩
    ((Session.ofPackets .sample .tcp ps).buildStream .uplink).bytes = [0, 1, 2, 3, 4, 5, 6, 7] ∧
      ((Session.ofPackets .sample .tcp (ps.map (·.renumber k))).buildStream .uplink).bytes =
        [4, 5, 6, 7, 0, 1, 2, 3] := by
  exact ⟨by decide +kernel, by decide +kernel⟩

end HttpCapture
