import HttpCapture.Proofs.ChosenCopies
import Mathlib.Data.List.Basic

/-! Which copies the other side confirmed. The search for an acknowledged number forgets each number
once it has looked at what follows there, and still finds one exactly when packets lead to one, each
starting where the one before it ends. Of the copies at a number a confirmed one is taken, else the
last. -/

namespace HttpCapture

/-- The number that a packet of the given direction acknowledges. -/
def SessionPacket.ack? (d : Direction) (p : SessionPacket) : Option UInt32 :=
  if p.direction.sameSide d then
    p.packet.tcp?.bind fun info => if info.flags.ack then some info.ack else none
  else none

/-- Packets of a direction lead from a sequence number to one that the other side acknowledged. -/
inductive LeadsToAck (ps : List SessionPacket) (d : Direction) : UInt32 → Prop
  | acked {x : UInt32} {p : SessionPacket} (hp : p ∈ ps) (hack : p.ack? d.opposite = some x) :
    LeadsToAck ps d x
  | onward {x : UInt32} {p : SessionPacket} {bytes : Bytes} (hp : p ∈ ps)
    (hseg : p.segment? d = some (x, bytes)) (h : LeadsToAck ps d (seqAfter x bytes.length)) :
    LeadsToAck ps d x

theorem AckSet.mem_insert {ack x : UInt32} {s : AckSet} :
    x ∈ AckSet.insert ack s ↔ x ∈ s ∨ ack = x := by
  induction s with
  | nil => simp [insert, eq_comm]
  | cons a s ih =>
    simp only [insert]
    split
    · simp [or_comm, eq_comm]
    · split
      · next he => simp [he, eq_comm, or_comm]
      · simp [ih, or_assoc]

namespace Continuations

/-- An acknowledged number is reached over the continuations. -/
inductive Leads (acks : AckSet) (next : Continuations) : UInt32 → Prop
  | acked {x : UInt32} (h : x ∈ acks) : Leads acks next x
  | onward {x y : UInt32} {ys : List UInt32} (hys : next.lookup x = some ys) (hy : y ∈ ys)
    (h : Leads acks next y) : Leads acks next x

variable {acks : AckSet} {next : Continuations} {x y : UInt32} {ys : List UInt32}

theorem lookup_without (next : Continuations) (x y : UInt32) :
    (next.without x).lookup y = if y = x then none else next.lookup y := by
  unfold without
  induction next with
  | nil => simp
  | cons e next ih =>
    obtain ⟨seq, zs⟩ := e
    by_cases hx : seq = x
    · subst hx
      by_cases hy : y = seq
      · simpa [hy] using ih
      · simpa [List.lookup_cons, hy, beq_eq_false_iff_ne.mpr hy] using ih
    · by_cases hy : y = seq
      · simp [hx, hy]
      · simpa [hx, List.lookup_cons, beq_eq_false_iff_ne.mpr hy] using ih

theorem Leads.of_without (h : Leads acks (next.without x) y) : Leads acks next y := by
  induction h with
  | acked h => exact .acked h
  | onward hys hy _ ih =>
    rw [lookup_without] at hys
    split at hys
    · simp at hys
    · exact .onward hys hy ih

/-- A way to an acknowledged number either avoids `x` or goes on from it the
last time it is there. -/
theorem Leads.without (hys : next.lookup x = some ys) (hx : x ∉ acks) (h : Leads acks next y) :
    Leads acks (next.without x) y ∧ y ≠ x ∨ ∃ z ∈ ys, Leads acks (next.without x) z := by
  induction h with
  | acked h => exact .inl ⟨.acked h, fun he => hx (he ▸ h)⟩
  | @onward y z zs hzs hz _ ih =>
    rcases ih with ⟨hlead, _⟩ | hlead
    · by_cases hy : y = x
      · subst hy
        obtain rfl : ys = zs := Option.some.inj (hys.symm.trans hzs)
        exact .inr ⟨z, hz, hlead⟩
      · refine .inl ⟨.onward ?_ hz hlead, hy⟩
        rwa [lookup_without, if_neg hy]
    · exact .inr hlead

end Continuations

theorem reachesAck_iff {acks : AckSet} {next : Continuations} {work : List UInt32} :
    reachesAck acks next work = true ↔ ∃ x ∈ work, Continuations.Leads acks next x := by
  fun_induction reachesAck acks next work with
  | case1 => simp
  | case2 next x rest hx =>
    simp only [true_iff]
    exact ⟨x, List.mem_cons_self, .acked (by simpa using hx)⟩
  | case3 next x rest hx hnone ih =>
    rw [ih]
    refine ⟨fun ⟨y, hy, h⟩ => ⟨y, List.mem_cons_of_mem _ hy, h⟩, ?_⟩
    rintro ⟨y, hy, h⟩
    rcases List.mem_cons.mp hy with rfl | hy
    · cases h with
      | acked h => exact absurd (by simpa using h) hx
      | onward hys => simp [hnone] at hys
    · exact ⟨y, hy, h⟩
  | case4 next x rest hx ys hys ih =>
    have hx : x ∉ acks := by simpa using hx
    rw [ih]
    constructor
    · rintro ⟨y, hy, h⟩
      rcases List.mem_append.mp hy with hy | hy
      · exact ⟨x, List.mem_cons_self, .onward hys hy h.of_without⟩
      · exact ⟨y, List.mem_cons_of_mem _ hy, h.of_without⟩
    · rintro ⟨y, hy, h⟩
      rcases h.without hys hx with ⟨hlead, hne⟩ | ⟨z, hz, hlead⟩
      · have hy : y ∈ rest := (List.mem_cons.mp hy).resolve_left hne
        exact ⟨y, List.mem_append_right _ hy, hlead⟩
      · exact ⟨z, List.mem_append_left _ hz, hlead⟩

theorem chooseCopy_reachesAck {acks : AckSet} {next : Continuations} {seq : UInt32}
    {copies : List Copy} {c : Copy} (h : chooseCopy acks next seq copies = some c)
    (hsome : ∃ b ∈ copies, reachesAck acks next [seqAfter seq b.payload.length] = true) :
    reachesAck acks next [seqAfter seq c.payload.length] = true := by
  obtain ⟨b, hb, hreach⟩ := hsome
  unfold chooseCopy at h
  split at h
  · simp at h
  · obtain rfl := List.mem_singleton.mp hb
    obtain rfl := Option.some.inj h
    exact hreach
  · cases hf : copies.find? fun c => reachesAck acks next [seqAfter seq c.payload.length] with
    | none => exact absurd hreach (List.find?_eq_none.mp hf b hb)
    | some first =>
      obtain rfl : first = c := by simpa [hf] using h
      simpa using List.find?_some hf

theorem chooseCopy_eq_getLast? {acks : AckSet} {next : Continuations} {seq : UInt32}
    {copies : List Copy}
    (h : ∀ b ∈ copies, reachesAck acks next [seqAfter seq b.payload.length] = false) :
    chooseCopy acks next seq copies = copies.getLast? := by
  unfold chooseCopy
  split
  · rfl
  · rfl
  · have hf : copies.find? (fun c => reachesAck acks next [seqAfter seq c.payload.length]) = none :=
      List.find?_eq_none.mpr fun b hb => by simp [h b hb]
    simp [hf]

/-- The payloads at a sequence number, in the order of capture. -/
def payloadsAt (ps : List SessionPacket) (d : Direction) (seq : UInt32) : List Bytes :=
  ps.filterMap fun p => ((p.segment? d).filter (·.1 = seq)).map (·.2)

theorem mem_payloadsAt {ps : List SessionPacket} {d : Direction} {seq : UInt32} {bytes : Bytes} :
    bytes ∈ payloadsAt ps d seq ↔ ∃ p ∈ ps, p.segment? d = some (seq, bytes) := by
  simp only [payloadsAt, List.mem_filterMap, Option.map_eq_some_iff, Option.filter_eq_some_iff,
    decide_eq_true_eq, Prod.exists]
  constructor
  · rintro ⟨p, hp, n, bytes, ⟨hseg, rfl⟩, rfl⟩
    exact ⟨p, hp, hseg⟩
  · rintro ⟨p, hp, hseg⟩
    exact ⟨p, hp, seq, bytes, ⟨hseg, rfl⟩, rfl⟩

namespace Session

/-- What pushing packets keeps true of the indexes and of the acknowledgement numbers. -/
structure Mirrors (s : Session) : Prop extends s.Indexed where
  acks : ∀ d x, x ∈ s.acks.get d ↔ ∃ p ∈ s.packets, p.ack? d = some x

theorem mem_acks_push {s : Session} {p : SessionPacket} {d : Direction} {x : UInt32} :
    x ∈ (s.push p).acks.get d ↔ x ∈ s.acks.get d ∨ p.ack? d = some x := by
  unfold push SessionPacket.ack?
  cases p.packet.tcp? with
  | none => simp
  | some info =>
    have hget := Sides.get_modify s.acks p.direction d
      fun a => if info.flags.ack then a.insert info.ack else a
    dsimp only [pushTcp]
    rw [hget]
    by_cases hd : p.direction.sameSide d
    · by_cases hack : info.flags.ack
      · simp [hd, hack, AckSet.mem_insert]
      · simp [hd, hack]
    · simp [hd]

theorem Mirrors.push {s : Session} (h : s.Mirrors) (p : SessionPacket) : (s.push p).Mirrors where
  toIndexed := h.toIndexed.push p
  acks d x := by
    rw [mem_acks_push, h.acks, packets_push]
    simp [or_and_right, exists_or]

theorem mirrors_new (key : SessionKey) (kind : TransportKind) : (new key kind).Mirrors where
  toIndexed := indexed_new key kind
  acks d x := by cases d <;> simp [new, Sides.both, Sides.get]

theorem Mirrors.foldl_push {s : Session} (h : s.Mirrors) (ps : List SessionPacket) :
    (ps.foldl Session.push s).Mirrors := by
  induction ps generalizing s with
  | nil => exact h
  | cons p ps ih => exact ih (h.push p)

theorem mirrors_ofPackets (key : SessionKey) (kind : TransportKind) (ps : List SessionPacket) :
    (ofPackets key kind ps).Mirrors :=
  (mirrors_new key kind).foldl_push ps

theorem map_payload_copies (s : Session) (d : Direction) (seq : UInt32) :
    ((placesAt s.packets d seq).filterMap s.copy?).map (·.payload) =
      payloadsAt s.packets d seq := by
  have hfst : payloadsAt s.packets d seq = (s.packets.zipIdx.map (·.1)).filterMap fun p =>
      ((p.segment? d).filter (·.1 = seq)).map (·.2) := by
    rw [List.zipIdx_map_fst]
    rfl
  rw [hfst, placesAt, List.map_filterMap, List.filterMap_map, List.filterMap_filter,
    List.filterMap_map]
  refine List.filterMap_congr fun e he => ?_
  obtain ⟨p, i⟩ := e
  have hi : s.packets[i]? = some p := List.mem_zipIdx_iff_getElem?.mp he
  simp only [Function.comp_apply, copy?, hi, Option.bind_some]
  unfold SessionPacket.segment? SessionPacket.startsAt
  cases p.packet.tcp? with
  | none => simp
  | some info =>
    by_cases hd : p.direction.sameSide d
    · by_cases hp : p.packet.payload.isEmpty
      · simp [hp]
      · by_cases hs : info.seq = seq <;> simp [hd, hp, hs, Option.filter]
    · simp [hd]

theorem Indexed.mem_continuations {s : Session} (h : s.Indexed) {d : Direction} {x : UInt32}
    {ys : List UInt32} :
    (x, ys) ∈ (s.copies d).continuations ↔
      ys ≠ [] ∧ ys = (payloadsAt s.packets d x).map fun bytes => seqAfter x bytes.length := by
  simp only [Copies.continuations, List.mem_map, Prod.exists, Prod.mk.injEq, h.mem_copies,
    ← map_payload_copies, List.map_map]
  constructor
  · rintro ⟨_, _, ⟨hne, rfl⟩, rfl, rfl⟩
    exact ⟨by simpa using hne, rfl⟩
  · rintro ⟨hne, rfl⟩
    exact ⟨x, _, ⟨by simpa using hne, rfl⟩, rfl, rfl⟩

theorem Indexed.lookup_continuations {s : Session} (h : s.Indexed) {d : Direction} {x : UInt32}
    {ys : List UInt32} :
    (s.copies d).continuations.lookup x = some ys ↔ (x, ys) ∈ (s.copies d).continuations := by
  have hascending : (s.copies d).continuations.Pairwise fun a b => a.1 < b.1 :=
    List.pairwise_map.mpr (h.copies_ascending d)
  exact lookup_eq_some_iff_of_ascending hascending

theorem Mirrors.leads_iff {s : Session} (h : s.Mirrors) {d : Direction} {x : UInt32} :
    Continuations.Leads (s.acks.get d.opposite) (s.copies d).continuations x ↔
      LeadsToAck s.packets d x := by
  constructor
  · intro hlead
    induction hlead with
    | acked hx =>
      obtain ⟨p, hp, hack⟩ := (h.acks _ _).mp hx
      exact .acked hp hack
    | onward hys hy _ ih =>
      obtain ⟨_, rfl⟩ := h.mem_continuations.mp (h.lookup_continuations.mp hys)
      obtain ⟨bytes, hbytes, rfl⟩ := List.mem_map.mp hy
      obtain ⟨p, hp, hseg⟩ := mem_payloadsAt.mp hbytes
      exact .onward hp hseg ih
  · intro hlead
    induction hlead with
    | acked hp hack => exact .acked ((h.acks _ _).mpr ⟨_, hp, hack⟩)
    | @onward x p bytes hp hseg _ ih =>
      have hy : seqAfter x bytes.length ∈
          (payloadsAt s.packets d x).map fun bytes => seqAfter x bytes.length :=
        List.mem_map_of_mem (f := fun bytes : Bytes => seqAfter x bytes.length)
          (mem_payloadsAt.mpr ⟨p, hp, hseg⟩)
      exact .onward (h.lookup_continuations.mpr
        (h.mem_continuations.mpr ⟨List.ne_nil_of_mem hy, rfl⟩)) hy ih

theorem Mirrors.reachesAck_iff {s : Session} (h : s.Mirrors) {d : Direction} {x : UInt32} :
    reachesAck (s.acks.get d.opposite) (s.copies d).continuations [x] = true ↔
      LeadsToAck s.packets d x := by
  simp [HttpCapture.reachesAck_iff, h.leads_iff]

theorem Indexed.exists_copies_of_mem_chosen {s : Session} (h : s.Indexed) {d : Direction}
    {seq : UInt32} {c : Copy} (hc : (seq, c) ∈ s.chosen d) :
    ∃ copies : List Copy, copies.map (·.payload) = payloadsAt s.packets d seq ∧
      chooseCopy (s.acks.get d.opposite) (s.copies d).continuations seq copies = some c := by
  obtain ⟨copies, hm, hchoose⟩ := mem_chosen.mp hc
  obtain ⟨_, rfl⟩ := h.mem_copies.mp hm
  exact ⟨_, s.map_payload_copies d seq, hchoose⟩

theorem Mirrors.chosen_leads {s : Session} (h : s.Mirrors) {d : Direction} {seq : UInt32} {c : Copy}
    (hc : (seq, c) ∈ s.chosen d)
    (hsome : ∃ bytes ∈ payloadsAt s.packets d seq,
      LeadsToAck s.packets d (seqAfter seq bytes.length)) :
    LeadsToAck s.packets d (seqAfter seq c.payload.length) := by
  obtain ⟨copies, hmap, hchoose⟩ := h.exists_copies_of_mem_chosen hc
  rw [← h.reachesAck_iff]
  refine chooseCopy_reachesAck hchoose ?_
  obtain ⟨bytes, hbytes, hlead⟩ := hsome
  rw [← hmap] at hbytes
  obtain ⟨b, hb, rfl⟩ := List.mem_map.mp hbytes
  exact ⟨b, hb, h.reachesAck_iff.mpr hlead⟩

end Session

end HttpCapture
