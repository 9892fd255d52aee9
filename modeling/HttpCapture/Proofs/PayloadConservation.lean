import HttpCapture.Proofs.MessageSizes
import HttpCapture.Proofs.PairingOrder
import HttpCapture.Proofs.StreamCoverage
import Mathlib.Algebra.GroupWithZero.Nat
import Mathlib.Algebra.Order.BigOperators.Group.List
import Mathlib.Algebra.Order.Group.Nat
import Mathlib.Data.List.Perm.Subperm

/-! Exchanges claim no more bytes than were captured. A stream takes each packet once at most, its
messages share no byte of it, and runs of encrypted records share no packet. -/

namespace HttpCapture

theorem length_takePieces_le (reached : Nat) (ps : List Placed) :
    ((takePieces reached ps).flatMap (·.bytes)).length ≤ (ps.map (·.payload.length)).sum := by
  induction ps generalizing reached with
  | nil => exact Nat.le_refl _
  | cons p ps ih =>
    rw [takePieces, List.map_cons, List.sum_cons]
    split
    · exact Nat.le_add_left_of_le (ih _)
    · next hdrop =>
      have hlen := p.payload.length_drop (i := reached - p.position)
      have hrest := ih (p.position + p.payload.length)
      rw [List.flatMap_cons, List.length_append]
      dsimp only
      omega

/-- The payload of the packets that travel on the side of a direction. -/
def payloadOf (ps : List SessionPacket) (d : Direction) : Nat :=
  ((ps.filter (·.direction.sameSide d)).map (·.packet.length)).sum

theorem payloadOf_singleton (p : SessionPacket) (d : Direction) :
    payloadOf [p] d = if p.direction.sameSide d then p.packet.length else 0 := by
  by_cases hd : p.direction.sameSide d <;> simp [payloadOf, hd]

theorem payloadOf_append (ps qs : List SessionPacket) (d : Direction) :
    payloadOf (ps ++ qs) d = payloadOf ps d + payloadOf qs d := by
  simp [payloadOf]

theorem payloadOf_le_of_sublist {ps qs : List SessionPacket} (h : ps.Sublist qs) (d : Direction) :
    payloadOf ps d ≤ payloadOf qs d :=
  ((h.filter _).map _).sum_le_sum fun _ _ => Nat.zero_le _

def payloadAt (ps : List SessionPacket) (i : Nat) : Nat := (ps[i]?.map (·.packet.length)).getD 0

theorem sum_payloadAt_placesWhere (ps : List SessionPacket) (d : Direction) :
    ((placesWhere (·.direction.sameSide d) ps).map (payloadAt ps)).sum = payloadOf ps d := by
  have hmap := map_placesWhere (·.direction.sameSide d) ps
  calc ((placesWhere (·.direction.sameSide d) ps).map (payloadAt ps)).sum
      = (((placesWhere (·.direction.sameSide d) ps).map (ps[·]?)).map fun p =>
          (p.map (·.packet.length)).getD 0).sum := by
        rw [List.map_map]
        rfl
    _ = payloadOf ps d := by
        rw [hmap, List.map_map]
        rfl

namespace Session

theorem payloadBytes_ofPackets (key : SessionKey) (kind : TransportKind) (ps : List SessionPacket)
    (d : Direction) : (ofPackets key kind ps).payloadBytes d = payloadOf ps d := by
  rw [← sum_payloadAt_placesWhere, ← order_ofPackets key kind]
  unfold payloadBytes
  rw [packets_ofPackets]
  rfl

variable {s : Session} {d : Direction}

theorem Indexed.nodup_chosen (h : s.Indexed) (d : Direction) :
    ((s.chosen d).map (·.2.packet)).Nodup := by
  refine List.pairwise_map.mpr ((h.chosen_ascending d).imp_of_mem ?_)
  rintro ⟨m, a⟩ ⟨n, b⟩ ha hb hlt hsame
  have hseq := seq_eq_of_packet_eq (h.of_mem_chosen ha) (h.of_mem_chosen hb) hsame
  exact absurd hseq (UInt32.ne_of_lt hlt)

/-- A stream takes each packet of its side once at most. -/
theorem Indexed.length_buildStream_le (h : s.Indexed) (d : Direction) :
    (s.buildStream d).length ≤ payloadOf s.packets d := by
  have hstream : (s.buildStream d).length ≤ ((s.chosen d).map (·.2.payload.length)).sum := by
    unfold buildStream
    split
    · have hpieces := length_takePieces_le 0
        ((s.chosen d).map fun e => ⟨e.2.packet, e.1.toNat, e.2.payload⟩)
      rw [List.map_map] at hpieces
      exact hpieces
    · exact Nat.zero_le _
  have hplaces : ∀ e ∈ s.chosen d, e.2.payload.length = payloadAt s.packets e.2.packet ∧
      e.2.packet ∈ placesWhere (·.direction.sameSide d) s.packets := by
    rintro ⟨seq, c⟩ hc
    obtain ⟨p, hp, hseg⟩ := h.of_mem_chosen hc
    obtain ⟨hstarts, hpayload, -⟩ := SessionPacket.segment?_eq_some.mp hseg
    have hside : p.direction.sameSide d = true := (Bool.and_eq_true_iff.mp hstarts).1
    exact ⟨by rw [payloadAt, hp, ← hpayload]; rfl, mem_placesWhere.mpr ⟨p, hp, hside⟩⟩
  have hsubperm : ((s.chosen d).map (·.2.packet)).Subperm
      (placesWhere (·.direction.sameSide d) s.packets) := by
    refine List.subperm_of_subset (h.nodup_chosen d) fun i hi => ?_
    obtain ⟨e, he, rfl⟩ := List.mem_map.mp hi
    exact (hplaces e he).2
  calc (s.buildStream d).length
      ≤ ((s.chosen d).map (·.2.payload.length)).sum := hstream
    _ = (((s.chosen d).map (·.2.packet)).map (payloadAt s.packets)).sum := by
        rw [List.map_map]
        exact congrArg List.sum (List.map_congr_left fun e he => (hplaces e he).1)
    _ ≤ ((placesWhere (·.direction.sameSide d) s.packets).map (payloadAt s.packets)).sum := by
        obtain ⟨l, hperm, hsub⟩ := hsubperm
        rw [← (hperm.map _).sum_eq]
        exact (hsub.map _).sum_le_sum fun _ _ => Nat.zero_le _
    _ = payloadOf s.packets d := sum_payloadAt_placesWhere _ _

end Session

def RecordRun.payload (run : RecordRun) : Nat := (run.members.map (·.2.packet.length)).sum

namespace RecordRuns

def payload (r : RecordRuns) (d : Direction) : Nat :=
  ((r.runs.filter (·.direction.sameSide d)).map RecordRun.payload).sum

variable {r t : RecordRuns} {i : Nat} {p : SessionPacket}

theorem payload_of_cons {run : RecordRun} {runs : List RecordRun} (h : r.runs = run :: runs)
    (d : Direction) : r.payload d =
      (if run.direction.sameSide d then run.payload else 0) + payload ⟨runs, false⟩ d := by
  unfold payload
  rw [h]
  by_cases hd : run.direction.sameSide d <;> simp [hd]

theorem payload_extend? (h : r.extend? i p = some t) (d : Direction) :
    t.payload d = r.payload d + payloadOf [p] d := by
  unfold extend? at h
  split at h
  · cases h
  · next run runs hruns =>
    split at h
    · next hopen =>
      obtain rfl := Option.some.inj h
      rw [payload_of_cons hruns, payload_of_cons rfl, payloadOf_singleton, ← hopen.2]
      have hrun : RecordRun.payload { run with members := (i, p) :: run.members } =
          p.packet.length + run.payload := by
        simp [RecordRun.payload]
      rw [hrun]
      split <;> omega
    · cases h

/-- A packet is counted once, on its own side, if it is counted at all. -/
theorem payload_add_le (r : RecordRuns) (i : Nat) (p : SessionPacket) (d : Direction) :
    (r.add i p).payload d ≤ r.payload d + payloadOf [p] d := by
  unfold add
  split
  · cases hextend : r.extend? i p with
    | some t => exact Nat.le_of_eq (payload_extend? hextend d)
    | none =>
      rw [Option.getD_none, payload_of_cons rfl, payloadOf_singleton]
      simp only [RecordRun.payload, List.map_singleton, List.sum_singleton]
      exact Nat.le_of_eq (Nat.add_comm _ _)
  · cases hextend : r.extend? i p with
    | some t => exact Nat.le_of_eq (payload_extend? hextend d)
    | none => exact Nat.le_add_right _ _
  · exact Nat.le_add_right _ _

theorem payload_foldl_le (ms : List (Nat × SessionPacket)) (r : RecordRuns) (d : Direction) :
    (ms.foldl (fun r (i, p) => r.add i p) r).payload d ≤
      r.payload d + payloadOf (ms.map (·.2)) d := by
  induction ms generalizing r with
  | nil => exact Nat.le_add_right _ _
  | cons m ms ih =>
    obtain ⟨i, p⟩ := m
    have hadd := r.payload_add_le i p d
    have hrest := ih (r.add i p)
    have hsplit : payloadOf (p :: ms.map (·.2)) d = payloadOf [p] d + payloadOf (ms.map (·.2)) d :=
      payloadOf_append [p] _ d
    rw [List.foldl_cons, List.map_cons, hsplit]
    exact Nat.le_trans hrest (by omega)

end RecordRuns

/-- The wire bytes of the exchanges on the side of a direction. -/
def wireTotal (es : List Exchange) (d : Direction) : Nat :=
  ((es.filter (·.direction.sameSide d)).map (·.wireBytes)).sum

theorem wireTotal_append (es fs : List Exchange) (d : Direction) :
    wireTotal (es ++ fs) d = wireTotal es d + wireTotal fs d := by
  simp [wireTotal]

theorem wireTotal_perm {es fs : List Exchange} (h : es.Perm fs) (d : Direction) :
    wireTotal es d = wireTotal fs d :=
  ((h.filter _).map _).sum_eq

theorem wireTotal_listExchanges (es : List Exchange) (d : Direction) :
    wireTotal (listExchanges es) d = wireTotal es d := by
  have hmap : (listExchanges es).map (fun e => (e.direction, e.wireBytes)) =
      es.map fun e => (e.direction, e.wireBytes) := by
    refine List.ext_getElem? fun i => ?_
    rw [List.getElem?_map, getElem?_listExchanges, List.getElem?_map, Option.map_map]
    refine congrArg (Option.map · es[i]?) (funext fun e => ?_)
    obtain ⟨_, _, heq⟩ := Exchange.pairBy_eq (answers [] 0 es) { e with index := i } i
    rw [Function.comp_apply, heq]
  have htotal : ∀ fs : List Exchange, wireTotal fs d =
      (((fs.map fun e => (e.direction, e.wireBytes)).filter (·.1.sameSide d)).map (·.2)).sum := by
    intro fs
    rw [List.filter_map, List.map_map]
    rfl
  rw [htotal, hmap, ← htotal]

namespace Reading

theorem wireTotal_messages_le (r : Reading) (methods : List String) (d : Direction) :
    wireTotal (r.messages methods) d ≤ if r.direction.sameSide d then r.stream.length else 0 := by
  have hdirection : ∀ e ∈ r.messages methods, e.direction = r.direction :=
    fun e he => ((r.cuts_messages methods).of_mem e he).2.1
  by_cases hd : r.direction.sameSide d = true
  · rw [if_pos hd, wireTotal, List.filter_eq_self.mpr fun e he => by rw [hdirection e he, hd]]
    exact r.wireBytes_messages_le methods
  · rw [if_neg hd, wireTotal,
      List.filter_eq_nil_iff.mpr fun e he => by rw [hdirection e he]; exact hd]
    exact Nat.le_refl _

end Reading

namespace Session

variable {s : Session} {limits : ReadingLimits} {sessionIndex : Nat}

theorem wireTotal_plainExchanges_le (h : s.Indexed) (limits : ReadingLimits) (sessionIndex : Nat)
    (d : Direction) :
    wireTotal (s.withStreams.plainExchanges limits sessionIndex) d ≤ payloadOf s.packets d := by
  have hup := (s.withStreams.reading limits sessionIndex .uplink).wireTotal_messages_le [] d
  have hdown := (s.withStreams.reading limits sessionIndex .downlink).wireTotal_messages_le
    (((s.withStreams.reading limits sessionIndex .uplink).messages []).filterMap Exchange.method?) d
  have hstreamUp := h.length_buildStream_le .uplink
  have hstreamDown := h.length_buildStream_le .downlink
  unfold plainExchanges
  dsimp only
  rw [wireTotal_append]
  change _ ≤ if Direction.uplink.sameSide d then (s.buildStream .uplink).length else 0 at hup
  change _ ≤ if Direction.downlink.sameSide d then (s.buildStream .downlink).length else 0 at hdown
  cases d with
  | uplink =>
    rw [if_pos (by decide)] at hup
    rw [if_neg (by decide)] at hdown
    omega
  | downlink =>
    rw [if_neg (by decide)] at hup
    rw [if_pos (by decide)] at hdown
    omega
  | unknown =>
    rw [if_pos (by decide)] at hup
    rw [if_neg (by decide)] at hdown
    have hside : payloadOf s.packets .unknown = payloadOf s.packets .uplink := rfl
    omega

theorem wireTotal_encryptedExchanges_le (s : Session) (sessionIndex : Nat) (d : Direction) :
    wireTotal (s.encryptedExchanges sessionIndex) d ≤ payloadOf s.packets d := by
  have hruns : wireTotal (s.encryptedExchanges sessionIndex) d =
      (s.accepted.foldl (fun r (i, p) => r.add i p) RecordRuns.empty).payload d := by
    rw [encryptedExchanges, recordRuns, wireTotal, List.filter_map, List.map_map,
      RecordRuns.payload]
    exact (((List.reverse_perm _).filter _).map _).sum_eq
  have haccepted : (s.accepted.map (·.2)).Sublist s.packets := by
    have hpackets : (s.packets.zipIdx.map Prod.swap).map (·.2) = s.packets := by
      rw [List.map_map]
      exact List.zipIdx_map_fst 0 s.packets
    conv_rhs => rw [← hpackets]
    exact List.filter_sublist.map _
  rw [hruns]
  calc (s.accepted.foldl (fun r (i, p) => r.add i p) RecordRuns.empty).payload d
      ≤ RecordRuns.empty.payload d + payloadOf (s.accepted.map (·.2)) d :=
        RecordRuns.payload_foldl_le _ _ _
    _ = payloadOf (s.accepted.map (·.2)) d := Nat.zero_add _
    _ ≤ payloadOf s.packets d := payloadOf_le_of_sublist haccepted d

theorem Indexed.wireTotal_reassemble_le (h : s.Indexed) (limits : ReadingLimits)
    (sessionIndex : Nat) (d : Direction) :
    wireTotal (s.reassemble limits sessionIndex).exchanges d ≤ payloadOf s.packets d := by
  rw [exchanges_reassemble]
  split
  · exact Nat.zero_le _
  · next hpackets =>
    have hfound : (s.reassemble limits sessionIndex).findExchanges limits sessionIndex =
        s.withStreams.findExchanges limits sessionIndex := by
      rw [reassemble_eq limits sessionIndex (Bool.eq_false_iff.mpr hpackets)]
      rfl
    rw [hfound, findExchanges]
    split
    · change wireTotal (listExchanges _) d ≤ _
      rw [wireTotal_listExchanges, wireTotal_perm (List.mergeSort_perm _ _)]
      exact s.wireTotal_encryptedExchanges_le sessionIndex d
    · change wireTotal (listExchanges _) d ≤ _
      rw [wireTotal_listExchanges, wireTotal_perm (List.mergeSort_perm _ _)]
      exact wireTotal_plainExchanges_le h limits sessionIndex d

theorem payloadBytes_reassemble (s : Session) (limits : ReadingLimits) (sessionIndex : Nat)
    (d : Direction) : (s.reassemble limits sessionIndex).payloadBytes d = s.payloadBytes d := by
  unfold reassemble
  dsimp only
  split
  · split <;> rfl
  · split <;> rfl

end Session

/-- The exchanges of a direction claim no more bytes than its packets carry. -/
theorem wireBytes_le_payload (key : SessionKey) (kind : TransportKind) (ps : List SessionPacket)
    (limits : ReadingLimits) (sessionIndex : Nat) (d : Direction) :
    let s := (Session.ofPackets key kind ps).reassemble limits sessionIndex
    ((s.exchanges.filter (·.direction.sameSide d)).map (·.wireBytes)).sum ≤ s.payloadBytes d ∧
      s.payloadBytes d = ((ps.filter (·.direction.sameSide d)).map (·.packet.length)).sum := by
  intro s
  have hindexed := Session.indexed_ofPackets key kind ps
  have htotal := hindexed.wireTotal_reassemble_le limits sessionIndex d
  have hpayload : s.payloadBytes d = payloadOf ps d :=
    (Session.payloadBytes_reassemble _ _ _ _).trans (Session.payloadBytes_ofPackets key kind ps d)
  rw [Session.packets_ofPackets, ← hpayload] at htotal
  exact ⟨htotal, hpayload⟩

end HttpCapture
