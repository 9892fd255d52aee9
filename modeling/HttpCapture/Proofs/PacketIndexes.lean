import HttpCapture.Proofs.AcknowledgedChains
import Mathlib.Data.List.Perm.Basic

/-! What a session's indexes tell of its packets. Each index is what the list of packets gives,
however many were pushed; the number a side began with and the packet that ended the connection are
those of the first such packet, so that no later packet changes them. -/

namespace HttpCapture

theorem placesWhere_perm {α : Type} {p q : α → Bool} (h : ∀ a, q a = !p a) (l : List α) :
    (placesWhere p l ++ placesWhere q l).Perm (List.range l.length) := by
  obtain rfl : q = fun a => !p a := funext h
  have hsplit := (List.filter_append_perm (fun e : α × Nat => p e.1) l.zipIdx).map (·.2)
  rw [List.map_append, List.zipIdx_map_snd, ← List.range_eq_range'] at hsplit
  exact hsplit

theorem placesWhere_ascending {α : Type} (p : α → Bool) (l : List α) :
    (placesWhere p l).Pairwise (· < ·) :=
  List.pairwise_map.mpr ((zipIdx_ascending l).filter _)

def SessionPacket.ending? (p : SessionPacket) : Option TerminationKind :=
  p.packet.tcp?.bind fun info =>
    if info.flags.rst then some .rst else if info.flags.fin then some .fin else none

/-- How the packet at place `i` ends the connection, if it does. -/
def terminationAt? (ps : List SessionPacket) (i : Nat) : Option Termination :=
  ps[i]?.bind fun p => p.ending?.map fun kind =>
    ⟨i, kind, ((ps.take i).getLast?.map fun previous =>
      p.packet.timestamp.since previous.packet.timestamp).getD 0⟩

def firstTermination? (ps : List SessionPacket) : Option Termination :=
  ((List.range ps.length).filterMap (terminationAt? ps)).head?

theorem terminationAt?_append {ps : List SessionPacket} {i : Nat} (hi : i < ps.length)
    (qs : List SessionPacket) : terminationAt? (ps ++ qs) i = terminationAt? ps i := by
  rw [terminationAt?, terminationAt?, List.getElem?_append_left hi,
    List.take_append_of_le_length (Nat.le_of_lt hi)]

theorem firstTermination?_append_singleton (ps : List SessionPacket) (p : SessionPacket) :
    firstTermination? (ps ++ [p]) =
      (firstTermination? ps).or (terminationAt? (ps ++ [p]) ps.length) := by
  have hbefore : (List.range ps.length).filterMap (terminationAt? (ps ++ [p])) =
      (List.range ps.length).filterMap (terminationAt? ps) :=
    List.filterMap_congr fun i hi => terminationAt?_append (List.mem_range.mp hi) [p]
  have hlast : ([ps.length].filterMap (terminationAt? (ps ++ [p]))).head? =
      terminationAt? (ps ++ [p]) ps.length := by simp
  rw [firstTermination?, List.length_append, List.length_singleton, List.range_succ,
    List.filterMap_append, hbefore, List.head?_append, hlast]
  rfl

namespace Session

theorem termination_push (s : Session) (p : SessionPacket) :
    (s.push p).termination =
      s.termination.or (terminationAt? (s.packets ++ [p]) s.packets.length) := by
  have hat : terminationAt? (s.packets ++ [p]) s.packets.length = p.ending?.map fun kind =>
      ⟨s.packets.length, kind, (s.packets.getLast?.map fun previous =>
        p.packet.timestamp.since previous.packet.timestamp).getD 0⟩ := by
    simp [terminationAt?]
  rw [hat]
  unfold push SessionPacket.ending?
  cases p.packet.tcp? with
  | none => simp
  | some info =>
    dsimp only [pushTcp, ending, Option.bind_some]
    rw [Option.orElse_eq_orElse, Option.orElse_eq_or]
    refine congrArg s.termination.or ?_
    cases info.flags.rst <;> cases info.flags.fin <;> cases s.packets.getLast? <;> rfl

/-- The indexes of a session hold what its packets give, and nothing else. -/
structure IndexesPackets (s : Session) : Prop where
  order : ∀ d, s.order.get d = placesWhere (·.direction.sameSide d) s.packets
  /-- Each packet is on one side. -/
  divided : (s.order.uplink ++ s.order.downlink).Perm (List.range s.packets.length)
  seqs : ∀ d seq places, (seq, places) ∈ s.seqs.get d ↔
    places ≠ [] ∧ places = placesAt s.packets d seq
  /-- Each sequence number is listed once, and its packets in the order of their capture. -/
  ascending : ∀ d, ((s.seqs.get d).Pairwise fun a b => a.1 < b.1) ∧
    ∀ e ∈ s.seqs.get d, e.2.Pairwise (· < ·)
  acks : ∀ d ack, ack ∈ s.acks.get d ↔ ∃ p ∈ s.packets, p.ack? d = some ack
  baseSeq : ∀ d, s.baseSeq.get d = s.packets.findSome? (·.seq? d)
  termination : s.termination = firstTermination? s.packets

theorem baseSeq_ofPackets (key : SessionKey) (kind : TransportKind) (ps : List SessionPacket)
    (d : Direction) : (ofPackets key kind ps).baseSeq.get d = ps.findSome? (·.seq? d) := by
  induction ps using List.reverseRecOn with
  | nil => cases d <;> rfl
  | append_singleton ps p ih =>
    rw [ofPackets_append_singleton, get_baseSeq_push, ih, List.findSome?_append]
    simp

theorem termination_ofPackets (key : SessionKey) (kind : TransportKind) (ps : List SessionPacket) :
    (ofPackets key kind ps).termination = firstTermination? ps := by
  induction ps using List.reverseRecOn with
  | nil => rfl
  | append_singleton ps p ih =>
    rw [ofPackets_append_singleton, termination_push, ih, packets_ofPackets,
      firstTermination?_append_singleton]

theorem Mirrors.indexesPackets {s : Session} (h : s.Mirrors)
    (horder : ∀ d, s.order.get d = placesWhere (·.direction.sameSide d) s.packets)
    (hbase : ∀ d, s.baseSeq.get d = s.packets.findSome? (·.seq? d))
    (htermination : s.termination = firstTermination? s.packets) : s.IndexesPackets where
  order := horder
  divided := by
    have hsides : ∀ p : SessionPacket,
        p.direction.sameSide .downlink = !p.direction.sameSide .uplink := by
      intro p
      cases p.direction <;> rfl
    have hperm := placesWhere_perm hsides s.packets
    rwa [← horder, ← horder] at hperm
  seqs d seq places := by
    rw [(h.ordered d).mem_iff, h.under, eq_comm (a := places)]
  ascending d := by
    refine ⟨(h.ordered d).ascending, fun e he => ?_⟩
    obtain ⟨-, hplaces⟩ := (h.ordered d).mem_iff.mp he
    rw [← hplaces, h.under]
    exact placesWhere_ascending _ _
  acks := h.acks
  baseSeq := hbase
  termination := htermination

theorem baseSeq_foldl_push {s : Session} {d : Direction} {seq : UInt32}
    (h : s.baseSeq.get d = some seq) (ps : List SessionPacket) :
    (ps.foldl push s).baseSeq.get d = some seq := by
  induction ps generalizing s with
  | nil => exact h
  | cons p ps ih => exact ih (by rw [get_baseSeq_push, h]; rfl)

theorem termination_foldl_push {s : Session} {t : Termination} (h : s.termination = some t)
    (ps : List SessionPacket) : (ps.foldl push s).termination = some t := by
  induction ps generalizing s with
  | nil => exact h
  | cons p ps ih => exact ih (by rw [termination_push, h]; rfl)

end Session

/-- Whatever is pushed into a new session, its indexes are those of its packets; its base numbers
and its end, once known, stay. -/
theorem indexesPackets_ofPackets (key : SessionKey) (kind : TransportKind)
    (ps : List SessionPacket) :
    let s := Session.ofPackets key kind ps
    s.packets = ps ∧ s.IndexesPackets ∧ ∀ later : List SessionPacket,
      (∀ d seq, s.baseSeq.get d = some seq →
        (later.foldl Session.push s).baseSeq.get d = some seq) ∧
      ∀ t, s.termination = some t → (later.foldl Session.push s).termination = some t := by
  intro s
  have hpackets : s.packets = ps := Session.packets_ofPackets key kind ps
  refine ⟨hpackets, (Session.mirrors_ofPackets key kind ps).indexesPackets ?_ ?_ ?_, fun later =>
    ⟨fun d seq hseq => Session.baseSeq_foldl_push hseq later,
      fun t ht => Session.termination_foldl_push ht later⟩⟩
  · intro d
    rw [hpackets]
    exact Session.order_ofPackets key kind ps d
  · intro d
    rw [hpackets]
    exact Session.baseSeq_ofPackets key kind ps d
  · rw [hpackets]
    exact Session.termination_ofPackets key kind ps

end HttpCapture
