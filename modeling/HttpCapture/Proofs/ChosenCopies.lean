import HttpCapture.Proofs.SessionIndexes
import HttpCapture.Session.Copies

/-! The copies that a stream takes: one for every sequence number at which the direction has
payload, each the payload of a packet that starts there, in ascending order. -/

namespace HttpCapture

/-- Where the payload of a packet starts and what it is, if the packet has the given direction and
any payload at all. -/
def SessionPacket.segment? (d : Direction) (p : SessionPacket) : Option (UInt32 × Bytes) :=
  if p.direction.sameSide d && !p.packet.payload.isEmpty then
    p.packet.tcp?.map fun info => (info.seq, p.packet.payload)
  else none

theorem SessionPacket.segment?_eq_some {d : Direction} {p : SessionPacket} {seq : UInt32}
    {bytes : Bytes} :
    p.segment? d = some (seq, bytes) ↔
      p.startsAt d seq = true ∧ p.packet.payload = bytes ∧ bytes ≠ [] := by
  unfold segment? startsAt
  cases ht : p.packet.tcp? with
  | none => simp
  | some info =>
    by_cases hd : p.direction.sameSide d
    · by_cases hp : p.packet.payload = []
      · simp only [hd, hp, List.isEmpty_nil, Bool.not_true, Bool.and_false]
        constructor
        · simp
        · rintro ⟨_, hb, hne⟩
          exact absurd hb.symm hne
      · simp [hd, hp]
        rintro _ rfl
        exact hp
    · simp [hd]

theorem lookup_eq_some_iff_of_ascending {α : Type} {l : List (UInt32 × α)}
    (h : l.Pairwise fun a b => a.1 < b.1) {x : UInt32} {a : α} :
    l.lookup x = some a ↔ (x, a) ∈ l := by
  rw [List.lookup_eq_some_iff]
  constructor
  · rintro ⟨_, _, he, _⟩
    simp [he]
  · intro hmem
    obtain ⟨before, after, he⟩ := List.append_of_mem hmem
    refine ⟨before, after, he, fun e hb => ?_⟩
    rw [he, List.pairwise_append] at h
    have hlt := h.2.2 e hb _ List.mem_cons_self
    simpa using UInt32.ne_of_lt hlt |>.symm

theorem chooseCopy_mem {acks : AckSet} {next : Continuations} {seq : UInt32} {copies : List Copy}
    {c : Copy} (h : chooseCopy acks next seq copies = some c) : c ∈ copies := by
  unfold chooseCopy at h
  split at h
  · simp at h
  · simp_all
  · cases hf : copies.find? fun c => reachesAck acks next [seqAfter seq c.payload.length] with
    | some first =>
      obtain rfl : first = c := by simpa [hf] using h
      exact List.mem_of_find?_eq_some hf
    | none =>
      exact List.mem_of_getLast? (by simpa [hf] using h)

theorem chooseCopy_isSome (acks : AckSet) (next : Continuations) (seq : UInt32) {copies : List Copy}
    (h : copies ≠ []) : (chooseCopy acks next seq copies).isSome := by
  unfold chooseCopy
  split
  · exact absurd rfl h
  · rfl
  · cases hf : copies.find? fun c => reachesAck acks next [seqAfter seq c.payload.length] with
    | some c => rfl
    | none => simpa [List.getLast?_isSome] using h

namespace Session

theorem copy?_eq_some {s : Session} {i : Nat} {c : Copy} :
    s.copy? i = some c ↔
      ∃ p, s.packets[i]? = some p ∧ p.packet.payload ≠ [] ∧ c = ⟨i, p.packet.payload⟩ := by
  unfold copy?
  cases hp : s.packets[i]? with
  | none => simp
  | some p =>
    by_cases he : p.packet.payload = []
    · simp [he]
    · simp [he, eq_comm (b := c)]

theorem mem_filterMap_copy? {s : Session} {d : Direction} {seq : UInt32} {c : Copy} :
    c ∈ (placesAt s.packets d seq).filterMap s.copy? ↔
      ∃ p, s.packets[c.packet]? = some p ∧ p.segment? d = some (seq, c.payload) := by
  simp only [List.mem_filterMap, copy?_eq_some, mem_placesAt, SessionPacket.segment?_eq_some]
  constructor
  · rintro ⟨i, ⟨p, hp, hs⟩, q, hq, hne, rfl⟩
    obtain rfl : p = q := Option.some.inj (hp.symm.trans hq)
    exact ⟨p, hp, hs, rfl, hne⟩
  · rintro ⟨p, hp, hs, hb, hne⟩
    exact ⟨c.packet, ⟨p, hp, hs⟩, p, hp, hb ▸ hne, by rw [hb]⟩

/-- A packet starts at one sequence number only. -/
theorem seq_eq_of_packet_eq {s : Session} {d : Direction} {m n : UInt32} {a b : Copy}
    (ha : ∃ p, s.packets[a.packet]? = some p ∧ p.segment? d = some (m, a.payload))
    (hb : ∃ p, s.packets[b.packet]? = some p ∧ p.segment? d = some (n, b.payload))
    (hsame : a.packet = b.packet) : m = n := by
  obtain ⟨p, hp, hpseg⟩ := ha
  obtain ⟨q, hq, hqseg⟩ := hb
  obtain rfl : p = q := Option.some.inj (hp.symm.trans (hsame ▸ hq))
  exact (Prod.mk.inj (Option.some.inj (hpseg.symm.trans hqseg))).1

theorem Indexed.mem_copies {s : Session} (h : s.Indexed) {d : Direction} {seq : UInt32}
    {copies : List Copy} :
    (seq, copies) ∈ s.copies d ↔
      copies ≠ [] ∧ copies = (placesAt s.packets d seq).filterMap s.copy? := by
  simp only [Session.copies, List.mem_filter, List.mem_map, Prod.exists, Prod.mk.injEq]
  constructor
  · rintro ⟨⟨n, places, hm, rfl, rfl⟩, hne⟩
    rw [(h.ordered d).mem_iff, h.under] at hm
    exact ⟨by simpa using hne, by rw [hm.2]⟩
  · rintro ⟨hne, rfl⟩
    refine ⟨⟨seq, placesAt s.packets d seq, ?_, rfl, rfl⟩, by simpa using hne⟩
    rw [(h.ordered d).mem_iff, h.under]
    exact ⟨fun he => hne (by simp [he]), rfl⟩

theorem mem_chosen {s : Session} {d : Direction} {seq : UInt32} {c : Copy} :
    (seq, c) ∈ s.chosen d ↔ ∃ copies, (seq, copies) ∈ s.copies d ∧
      chooseCopy (s.acks.get d.opposite) (s.copies d).continuations seq copies = some c := by
  simp only [chosen, List.mem_filterMap, Option.map_eq_some_iff, Prod.exists, Prod.mk.injEq]
  constructor
  · rintro ⟨_, copies, hm, _, hc, rfl, rfl⟩
    exact ⟨copies, hm, hc⟩
  · rintro ⟨copies, hm, hc⟩
    exact ⟨seq, copies, hm, c, hc, rfl, rfl⟩

theorem Indexed.copies_ascending {s : Session} (h : s.Indexed) (d : Direction) :
    (s.copies d).Pairwise fun a b => a.1 < b.1 := by
  refine List.Pairwise.filter _ (List.pairwise_map.mpr ?_)
  exact (h.ordered d).ascending

theorem Indexed.chosen_ascending {s : Session} (h : s.Indexed) (d : Direction) :
    (s.chosen d).Pairwise fun a b => a.1 < b.1 := by
  refine (h.copies_ascending d).filterMap _ ?_
  rintro ⟨m, xs⟩ ⟨n, ys⟩ hlt a ha b hb
  simp only [Option.map_eq_some_iff] at ha hb
  obtain ⟨_, _, rfl⟩ := ha
  obtain ⟨_, _, rfl⟩ := hb
  exact hlt

theorem Indexed.of_mem_chosen {s : Session} (h : s.Indexed) {d : Direction}
    {seq : UInt32} {c : Copy} (hc : (seq, c) ∈ s.chosen d) :
    ∃ p, s.packets[c.packet]? = some p ∧ p.segment? d = some (seq, c.payload) := by
  obtain ⟨copies, hm, hchoose⟩ := mem_chosen.mp hc
  have hmem := chooseCopy_mem hchoose
  rw [(h.mem_copies.mp hm).2] at hmem
  exact mem_filterMap_copy?.mp hmem

theorem Indexed.exists_chosen {s : Session} (h : s.Indexed) {d : Direction} {p : SessionPacket}
    {seq : UInt32} {bytes : Bytes} (hp : p ∈ s.packets) (hs : p.segment? d = some (seq, bytes)) :
    ∃ c, (seq, c) ∈ s.chosen d := by
  obtain ⟨i, hi⟩ := List.mem_iff_getElem?.mp hp
  have hmem : (⟨i, bytes⟩ : Copy) ∈ (placesAt s.packets d seq).filterMap s.copy? :=
    mem_filterMap_copy?.mpr ⟨p, hi, hs⟩
  have hcopies := h.mem_copies.mpr ⟨List.ne_nil_of_mem hmem, rfl⟩
  obtain ⟨c, hc⟩ := Option.isSome_iff_exists.mp
    (chooseCopy_isSome (s.acks.get d.opposite) (s.copies d).continuations seq
      (List.ne_nil_of_mem hmem))
  exact ⟨c, mem_chosen.mpr ⟨_, hcopies, hc⟩⟩

theorem Indexed.resolve_eq_some {s : Session} (h : s.Indexed) {d : Direction} {seq : UInt32}
    {i : Nat} : s.resolve d seq = some i ↔ ∃ c, (seq, c) ∈ s.chosen d ∧ c.packet = i := by
  simp only [resolve, Option.map_eq_some_iff,
    lookup_eq_some_iff_of_ascending (h.chosen_ascending d)]

end Session

end HttpCapture
