import HttpCapture.Session.Basic
import Mathlib.Data.List.Induction

/-! The indexes of a session mirror its packets: a sequence number is listed with exactly the places
of the packets that start there, and numbers ascend. -/

namespace HttpCapture

/-- Whether two directions share an index. -/
def Direction.sameSide (a b : Direction) : Bool := (a == .downlink) == (b == .downlink)

theorem Sides.get_modify {α : Type} (s : Sides α) (a b : Direction) (f : α → α) :
    (s.modify a f).get b = if a.sameSide b then f (s.get b) else s.get b := by
  cases a <;> cases b <;> rfl

theorem Sides.get_of_sameSide {α : Type} (s : Sides α) {a b : Direction} (h : a.sameSide b = true) :
    s.get a = s.get b := by
  cases a <;> cases b <;> first | rfl | simp [Direction.sameSide] at h

namespace SeqIndex

/-- Numbers ascend and each has a packet. -/
structure Ordered (m : SeqIndex) : Prop where
  ascending : m.Pairwise fun a b => a.1 < b.1
  inhabited : ∀ e ∈ m, e.2 ≠ []

theorem mem_add {seq : UInt32} {packet : Nat} {m : SeqIndex} {e : UInt32 × List Nat}
    (h : e ∈ add seq packet m) : e.1 = seq ∧ e.2 ≠ [] ∨ e ∈ m := by
  induction m with
  | nil => simp_all [add]
  | cons a m ih =>
    obtain ⟨s, packets⟩ := a
    simp only [add] at h
    split at h
    · rcases List.mem_cons.mp h with rfl | h
      · exact .inl ⟨rfl, by simp⟩
      · exact .inr h
    · split at h
      · next hs =>
        rcases List.mem_cons.mp h with rfl | h
        · exact .inl ⟨hs.symm, by simp⟩
        · exact .inr (List.mem_cons_of_mem _ h)
      · rcases List.mem_cons.mp h with rfl | h
        · exact .inr List.mem_cons_self
        · exact (ih h).imp_right (List.mem_cons_of_mem _)

theorem ascending_add {m : SeqIndex} (h : m.Pairwise fun a b => a.1 < b.1) (seq : UInt32)
    (packet : Nat) : (m.add seq packet).Pairwise fun a b => a.1 < b.1 := by
  induction m with
  | nil => simp [add]
  | cons a m ih =>
    obtain ⟨s, packets⟩ := a
    have ha := (List.pairwise_cons.mp h).1
    have hm := (List.pairwise_cons.mp h).2
    simp only [add]
    split
    · next hs =>
      refine List.pairwise_cons.mpr ⟨fun e he => ?_, h⟩
      rcases List.mem_cons.mp he with rfl | he
      · exact hs
      · exact UInt32.lt_trans hs (ha e he)
    · split
      · next hs => exact List.pairwise_cons.mpr ⟨by simpa using ha, hm⟩
      · next hlt hne =>
        refine List.pairwise_cons.mpr ⟨fun e he => ?_, ih hm⟩
        rcases mem_add he with ⟨he, _⟩ | he
        · rw [he]
          exact UInt32.lt_of_le_of_ne (UInt32.not_lt.mp hlt) (Ne.symm hne)
        · exact ha e he

theorem Ordered.add {m : SeqIndex} (h : Ordered m) (seq : UInt32) (packet : Nat) :
    Ordered (m.add seq packet) := by
  refine ⟨ascending_add h.ascending seq packet, fun e he => ?_⟩
  rcases mem_add he with ⟨_, he⟩ | he
  · exact he
  · exact h.inhabited e he

def under (m : SeqIndex) (seq : UInt32) : List Nat := (m.lookup seq).getD []

theorem under_cons (m : SeqIndex) (s k : UInt32) (packets : List Nat) :
    under ((s, packets) :: m) k = if k = s then packets else m.under k := by
  by_cases hk : k = s
  · simp [under, hk]
  · simp [under, List.lookup_cons, hk, beq_eq_false_iff_ne.mpr hk]

theorem under_of_forall_lt {m : SeqIndex} {k : UInt32} (h : ∀ e ∈ m, k < e.1) : m.under k = [] := by
  have hk : m.lookup k = none := by
    rw [List.lookup_eq_none_iff]
    intro e he
    simpa using UInt32.ne_of_lt (h e he)
  simp [under, hk]

theorem under_add {m : SeqIndex} (h : m.Pairwise fun a b => a.1 < b.1) (seq k : UInt32)
    (packet : Nat) :
    (m.add seq packet).under k = m.under k ++ if seq = k then [packet] else [] := by
  induction m with
  | nil =>
    rw [add, under_cons]
    simp [under, eq_comm]
  | cons a m ih =>
    obtain ⟨s, packets⟩ := a
    have ha := (List.pairwise_cons.mp h).1
    have hm := (List.pairwise_cons.mp h).2
    simp only [add]
    split
    · next hs =>
      by_cases hk : seq = k
      · subst hk
        have hlt : ∀ e ∈ (s, packets) :: m, seq < e.1 := by
          intro e he
          rcases List.mem_cons.mp he with rfl | he
          · exact hs
          · exact UInt32.lt_trans hs (ha e he)
        rw [under_of_forall_lt hlt, under_cons]
        simp
      · simp [under_cons _ seq, hk, Ne.symm hk]
    · split
      · next hs =>
        subst hs
        by_cases hk : seq = k
        · simp [under_cons, hk]
        · simp [under_cons, hk, Ne.symm hk]
      · next hne =>
        rw [under_cons, under_cons, ih hm]
        by_cases hk : k = s
        · have : seq ≠ k := fun he => hne (he.trans hk)
          simp [hk, hne]
        · simp [hk]

theorem Ordered.mem_iff {m : SeqIndex} (h : Ordered m) {seq : UInt32} {packets : List Nat} :
    (seq, packets) ∈ m ↔ packets ≠ [] ∧ m.under seq = packets := by
  induction m with
  | nil => simp [under, eq_comm]
  | cons a m ih =>
    obtain ⟨s, first⟩ := a
    have ha := (List.pairwise_cons.mp h.ascending).1
    have hm : Ordered m :=
      ⟨(List.pairwise_cons.mp h.ascending).2, fun e he => h.inhabited e (List.mem_cons_of_mem _ he)⟩
    have hf := h.inhabited (s, first) List.mem_cons_self
    rw [List.mem_cons, under_cons, ih hm, Prod.mk.injEq]
    by_cases hs : seq = s
    · have hnone : under m seq = [] := under_of_forall_lt (hs ▸ ha)
      rw [if_pos hs, hnone]
      constructor
      · rintro (⟨_, rfl⟩ | ⟨hne, he⟩)
        · exact ⟨hf, rfl⟩
        · exact absurd he.symm hne
      · rintro ⟨_, rfl⟩
        exact .inl ⟨hs, rfl⟩
    · simp [hs]

end SeqIndex

theorem zipIdx_ascending {α : Type} (l : List α) : l.zipIdx.Pairwise fun a b => a.2 < b.2 := by
  have hplaces : (l.zipIdx.map (·.2)).Pairwise (· < ·) := by
    rw [List.zipIdx_map_snd, ← List.range_eq_range']
    exact List.pairwise_lt_range
  exact List.pairwise_map.mp hplaces

/-- The places of the elements with a property. -/
def placesWhere {α : Type} (p : α → Bool) (l : List α) : List Nat :=
  (l.zipIdx.filter fun e => p e.1).map (·.2)

section

variable {α : Type} (p : α → Bool) (l : List α)

theorem placesWhere_append_singleton (a : α) :
    placesWhere p (l ++ [a]) = placesWhere p l ++ if p a then [l.length] else [] := by
  by_cases ha : p a <;> simp [placesWhere, List.zipIdx_append, List.filter_append, ha]

theorem map_placesWhere : (placesWhere p l).map (l[·]?) = (l.filter p).map some := by
  have hplace : ∀ e ∈ l.zipIdx.filter fun e => p e.1, l[e.2]? = some e.1 := by
    intro e he
    exact List.mem_zipIdx_iff_getElem?.mp (List.mem_filter.mp he).1
  calc (placesWhere p l).map (l[·]?)
      = (l.zipIdx.filter fun e => p e.1).map (some ·.1) := by
        rw [placesWhere, List.map_map]
        exact List.map_congr_left hplace
    _ = ((l.zipIdx.map (·.1)).filter p).map some := by
        rw [List.filter_map, List.map_map]
        rfl
    _ = (l.filter p).map some := by rw [List.zipIdx_map_fst]

variable {p l}

theorem mem_placesWhere {i : Nat} : i ∈ placesWhere p l ↔ ∃ a, l[i]? = some a ∧ p a = true := by
  simp [placesWhere, List.mem_zipIdx_iff_getElem?]

end

def SessionKey.sample : SessionKey := ⟨.v4 10 0 0 2, 40000, 80, .v4 93 184 216 34⟩

def SessionPacket.sample (d : Direction) (seq ack : UInt32) (payload : Bytes) : SessionPacket :=
  let key := SessionKey.sample
  .of ⟨.zero, d, key.localAddr, key.localPort, key.remoteAddr, key.remotePort,
    .tcp ⟨seq, ack, .ofBits 16, 65535⟩, payload, none, none, false⟩ d

def SessionPacket.startsAt (d : Direction) (seq : UInt32) (p : SessionPacket) : Bool :=
  p.direction.sameSide d && p.packet.tcp?.any (·.seq == seq)

/-- The sequence number of a TCP packet on the side of a direction. -/
def SessionPacket.seq? (d : Direction) (p : SessionPacket) : Option UInt32 :=
  if p.direction.sameSide d then p.packet.tcp?.map (·.seq) else none

def placesAt (ps : List SessionPacket) (d : Direction) (seq : UInt32) : List Nat :=
  (ps.zipIdx.filter fun e => e.1.startsAt d seq).map (·.2)

theorem placesAt_append_singleton (ps : List SessionPacket) (p : SessionPacket) (d : Direction)
    (seq : UInt32) :
    placesAt (ps ++ [p]) d seq =
      placesAt ps d seq ++ if p.startsAt d seq then [ps.length] else [] :=
  placesWhere_append_singleton (SessionPacket.startsAt d seq) ps p

theorem mem_placesAt {ps : List SessionPacket} {d : Direction} {seq : UInt32} {i : Nat} :
    i ∈ placesAt ps d seq ↔ ∃ p, ps[i]? = some p ∧ p.startsAt d seq :=
  mem_placesWhere (p := SessionPacket.startsAt d seq)

namespace Session

/-- What pushing packets keeps true: each direction's index lists its packets by sequence number. -/
structure Indexed (s : Session) : Prop where
  ordered : ∀ d, (s.seqs.get d).Ordered
  under : ∀ d seq, (s.seqs.get d).under seq = placesAt s.packets d seq

theorem indexed_new (key : SessionKey) (kind : TransportKind) : Indexed (new key kind) where
  ordered d := by cases d <;> exact ⟨List.Pairwise.nil, by simp [new, Sides.both, Sides.get]⟩
  under d seq := by cases d <;> rfl

theorem seqs_push (s : Session) (p : SessionPacket) (d : Direction) :
    (s.push p).seqs.get d =
      match p.packet.tcp? with
      | some info =>
        if p.direction.sameSide d then (s.seqs.get d).add info.seq s.packets.length
        else s.seqs.get d
      | none => s.seqs.get d := by
  unfold push
  cases p.packet.tcp? with
  | none => rfl
  | some info => exact Sides.get_modify s.seqs p.direction d _

@[simp] theorem packets_push (s : Session) (p : SessionPacket) :
    (s.push p).packets = s.packets ++ [p] := by
  unfold push
  cases p.packet.tcp? <;> rfl

theorem Indexed.push {s : Session} (h : s.Indexed) (p : SessionPacket) : (s.push p).Indexed where
  ordered d := by
    rw [seqs_push]
    cases p.packet.tcp? with
    | none => exact h.ordered d
    | some info =>
      by_cases hd : p.direction.sameSide d
      · simpa [hd] using (h.ordered d).add info.seq s.packets.length
      · simpa [hd] using h.ordered d
  under d seq := by
    rw [seqs_push, packets_push, placesAt_append_singleton, ← h.under]
    cases ht : p.packet.tcp? with
    | none => simp [SessionPacket.startsAt, ht]
    | some info =>
      by_cases hd : p.direction.sameSide d
      · simp [SessionPacket.startsAt, ht, hd, SeqIndex.under_add (h.ordered d).ascending]
      · simp [SessionPacket.startsAt, hd]

/-- The session that the given packets make up, pushed in this order. -/
def ofPackets (key : SessionKey) (kind : TransportKind) (ps : List SessionPacket) : Session :=
  ps.foldl push (new key kind)

theorem ofPackets_append_singleton (key : SessionKey) (kind : TransportKind)
    (ps : List SessionPacket) (p : SessionPacket) :
    ofPackets key kind (ps ++ [p]) = (ofPackets key kind ps).push p := by
  rw [ofPackets, List.foldl_append]
  rfl

theorem packets_foldl_push (ps : List SessionPacket) (s : Session) :
    (ps.foldl push s).packets = s.packets ++ ps := by
  induction ps generalizing s with
  | nil => simp
  | cons p ps ih => simp [ih]

@[simp] theorem packets_ofPackets (key : SessionKey) (kind : TransportKind)
    (ps : List SessionPacket) : (ofPackets key kind ps).packets = ps :=
  packets_foldl_push ps (new key kind)

theorem Indexed.foldl_push {s : Session} (h : s.Indexed) (ps : List SessionPacket) :
    (ps.foldl Session.push s).Indexed := by
  induction ps generalizing s with
  | nil => exact h
  | cons p ps ih => exact ih (h.push p)

theorem indexed_ofPackets (key : SessionKey) (kind : TransportKind) (ps : List SessionPacket) :
    (ofPackets key kind ps).Indexed :=
  (indexed_new key kind).foldl_push ps

theorem order_push (s : Session) (p : SessionPacket) (d : Direction) :
    (s.push p).order.get d =
      s.order.get d ++ if p.direction.sameSide d then [s.packets.length] else [] := by
  have hmodify : (s.push p).order = s.order.modify p.direction (· ++ [s.packets.length]) := by
    unfold push
    cases p.packet.tcp? <;> rfl
  rw [hmodify, Sides.get_modify]
  split <;> simp

theorem order_ofPackets (key : SessionKey) (kind : TransportKind) (ps : List SessionPacket)
    (d : Direction) : (ofPackets key kind ps).order.get d =
    placesWhere (·.direction.sameSide d) ps := by
  induction ps using List.reverseRecOn with
  | nil => cases d <;> rfl
  | append_singleton ps p ih =>
    rw [ofPackets_append_singleton, order_push, ih, packets_ofPackets, placesWhere_append_singleton]

theorem get_baseSeq_push (s : Session) (p : SessionPacket) (d : Direction) :
    (s.push p).baseSeq.get d = (s.baseSeq.get d).or (p.seq? d) := by
  unfold push SessionPacket.seq?
  cases p.packet.tcp? with
  | none => simp
  | some info =>
    have hget := Sides.get_modify s.baseSeq p.direction d fun b => b <|> some info.seq
    dsimp only [pushTcp]
    rw [hget]
    split <;> simp

theorem transport_foldl_push (ps : List SessionPacket) (s : Session) :
    (ps.foldl push s).transport = s.transport := by
  induction ps generalizing s with
  | nil => rfl
  | cons p ps ih =>
    rw [List.foldl_cons, ih]
    unfold push
    cases p.packet.tcp? <;> rfl

theorem isTcp_ofPackets (key : SessionKey) (ps : List SessionPacket) :
    (ofPackets key .tcp ps).isTcp = true := by
  simp [isTcp, ofPackets, transport_foldl_push, new]

end Session

end HttpCapture
