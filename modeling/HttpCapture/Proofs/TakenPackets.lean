import HttpCapture.Proofs.PacketIndexes

/-! The packet taken at a sequence number: none, the only one, the first that the other side
confirmed, or the last. The search that decides this keeps a list of numbers to look at.
Each packet puts one number on the list at most, so that the search ends also where packets
lead around in a circle. -/

namespace HttpCapture

namespace Continuations

/-- How many numbers are led to, each counted as often as a packet leads there. -/
def size (next : Continuations) : Nat := (next.flatMap (·.2)).length

theorem without_of_lookup_eq_none {next : Continuations} {x : UInt32} (h : next.lookup x = none) :
    next.without x = next := by
  rw [List.lookup_eq_none_iff] at h
  refine List.filter_eq_self.mpr fun e he => ?_
  have hne : x ≠ e.1 := by simpa using h e he
  simpa using Ne.symm hne

theorem size_without_le (next : Continuations) (x : UInt32) :
    (next.without x).size + ((next.lookup x).getD []).length ≤ next.size := by
  induction next with
  | nil => simp [without, size]
  | cons e next ih =>
    obtain ⟨seq, ys⟩ := e
    by_cases hx : x = seq
    · subst hx
      have hle : (without next x).size ≤ size next := Nat.le_of_add_right_le ih
      simp [without, size] at hle ⊢
      omega
    · simp [without, size, List.lookup_cons, beq_eq_false_iff_ne.mpr hx, Ne.symm hx] at ih ⊢
      omega

end Continuations

theorem reachesAck_cons (acks : AckSet) (next : Continuations) (x : UInt32) (rest : List UInt32) :
    reachesAck acks next (x :: rest) = (acks.contains x ||
      reachesAck acks (next.without x) ((next.lookup x).getD [] ++ rest)) := by
  rw [reachesAck]
  split
  · next hx => rw [hx, Bool.true_or]
  · next hx =>
    rw [Bool.eq_false_iff.mpr hx, Bool.false_or]
    split
    · next hnone => rw [hnone, Continuations.without_of_lookup_eq_none hnone]; rfl
    · next ys hys => rw [hys]; rfl

/-- A search for an acknowledged number under way. -/
structure AckSearch where
  /-- The numbers to look at, the one added last in front. -/
  work : List UInt32
  /-- The numbers looked at whose continuations are on the list or have been. -/
  seen : List UInt32

namespace AckSearch

/-- Look at one number: either the search is over, with an answer, or it goes on. -/
def step (acks : AckSet) (next : Continuations) (s : AckSearch) : Bool ⊕ AckSearch :=
  match s.work with
  | [] => .inl false
  | x :: rest =>
    if acks.contains x then .inl true
    else if s.seen.contains x then .inr ⟨rest, s.seen⟩
    else .inr ⟨((next.lookup x).getD []).reverse ++ rest, x :: s.seen⟩

/-- The search goes on the given number of times and ends with an answer. -/
inductive Ends (acks : AckSet) (next : Continuations) : AckSearch → Nat → Bool → Prop
  | over {s : AckSearch} {answer : Bool} (h : s.step acks next = .inl answer) :
    Ends acks next s 0 answer
  | goes {s t : AckSearch} {steps : Nat} {answer : Bool} (h : s.step acks next = .inr t)
    (hends : Ends acks next t steps answer) : Ends acks next s (steps + 1) answer

/-- The continuations that have not been put on the list. -/
def unused (next : Continuations) (s : AckSearch) : Continuations :=
  s.seen.foldr (fun x next => next.without x) next

/-- How many numbers there are to look at, at most. -/
def size (next : Continuations) (s : AckSearch) : Nat := s.work.length + (s.unused next).size

variable {acks : AckSet} {next : Continuations} {s t : AckSearch}

theorem lookup_unused (s : AckSearch) (next : Continuations) (x : UInt32) :
    (s.unused next).lookup x = if x ∈ s.seen then none else next.lookup x := by
  obtain ⟨work, seen⟩ := s
  induction seen with
  | nil => simp [unused]
  | cons y seen ih =>
    simp only [unused] at ih ⊢
    rw [List.foldr_cons, Continuations.lookup_without, ih]
    by_cases hx : x = y <;> simp [hx]

theorem answer_of_step {answer : Bool} (h : s.step acks next = .inl answer) :
    answer = reachesAck acks (s.unused next) s.work := by
  unfold step at h
  split at h
  · next hwork =>
    rw [hwork, reachesAck]
    exact (Sum.inl.inj h).symm
  · next x rest hwork =>
    split at h
    · next hx =>
      rw [hwork, reachesAck_cons, hx, Bool.true_or]
      exact (Sum.inl.inj h).symm
    · split at h <;> cases h

/-- What looking at one more number does to a search that goes on. -/
theorem of_step (h : s.step acks next = .inr t) :
    reachesAck acks (t.unused next) t.work = reachesAck acks (s.unused next) s.work ∧
      t.size next < s.size next := by
  unfold step at h
  split at h
  · cases h
  · next x rest hwork =>
    have hlookup := s.lookup_unused next x
    split at h
    · cases h
    · next hx =>
      rw [size, size, hwork, reachesAck_cons, Bool.eq_false_iff.mpr hx, Bool.false_or]
      split at h
      · next hseen =>
        obtain rfl := Sum.inr.inj h
        rw [if_pos (by simpa using hseen)] at hlookup
        rw [hlookup, Continuations.without_of_lookup_eq_none hlookup]
        refine ⟨rfl, ?_⟩
        simp [unused]
      · next hseen =>
        obtain rfl := Sum.inr.inj h
        rw [if_neg (by simpa using hseen)] at hlookup
        have hunused : unused next ⟨((next.lookup x).getD []).reverse ++ rest, x :: s.seen⟩ =
            (s.unused next).without x := rfl
        have hsize := (s.unused next).size_without_le x
        rw [hlookup] at hsize ⊢
        rw [hunused]
        refine ⟨?_, ?_⟩
        · -- The answer does not depend on the order of the list.
          rw [Bool.eq_iff_iff, reachesAck_iff, reachesAck_iff]
          simp
        · simp only [List.length_append, List.length_reverse, List.length_cons]
          omega

/-- Whatever the continuations, the search ends, and with the answer whether one of the numbers
leads to an acknowledged one. -/
theorem exists_ends (acks : AckSet) (next : Continuations) (s : AckSearch) :
    ∃ steps ≤ s.size next, Ends acks next s steps (reachesAck acks (s.unused next) s.work) := by
  induction hsize : s.size next using Nat.strongRecOn generalizing s with
  | _ n ih =>
    cases hstep : s.step acks next with
    | inl answer => exact ⟨0, Nat.zero_le _, .over (answer_of_step hstep ▸ hstep)⟩
    | inr t =>
      obtain ⟨hsame, hlt⟩ := of_step hstep
      obtain ⟨steps, hle, hends⟩ := ih _ (hsize ▸ hlt) t rfl
      rw [hsame] at hends
      exact ⟨steps + 1, by omega, .goes hstep hends⟩

end AckSearch

section

variable (ps : List SessionPacket) (d : Direction) (seq : UInt32)

/-- The packet at place `i` carries payload of a direction from `seq` on. -/
def IsCandidate (i : Nat) : Prop := ∃ p ∈ ps[i]?, ∃ bytes, p.segment? d = some (seq, bytes)

/-- The packet at place `i` is such a one, and packets lead from its end to a number that the
other side acknowledged. -/
def IsConfirmed (i : Nat) : Prop :=
  ∃ p ∈ ps[i]?, ∃ bytes, p.segment? d = some (seq, bytes) ∧
    LeadsToAck ps d (seqAfter seq bytes.length)

/-- What is taken at a sequence number. -/
structure Taken (choice : Option Nat) : Prop where
  none_iff : choice = none ↔ ∀ i, ¬ IsCandidate ps d seq i
  only : ∀ i, (∀ j, IsCandidate ps d seq j ↔ j = i) → choice = some i
  confirmed : ∀ i, IsConfirmed ps d seq i → (∀ j < i, ¬ IsConfirmed ps d seq j) →
    choice = some i
  last : (∀ j, ¬ IsConfirmed ps d seq j) → ∀ i, IsCandidate ps d seq i →
    (∀ j, IsCandidate ps d seq j → j ≤ i) → choice = some i

end

section

variable {acks : AckSet} {next : Continuations} {seq : UInt32} {copies : List Copy} {c : Copy}

theorem chooseCopy_eq_first (hascending : copies.Pairwise fun a b => a.packet < b.packet)
    (hc : c ∈ copies) (hreach : reachesAck acks next [seqAfter seq c.payload.length] = true)
    (hfirst : ∀ b ∈ copies, b.packet < c.packet →
      reachesAck acks next [seqAfter seq b.payload.length] = false) :
    chooseCopy acks next seq copies = some c := by
  unfold chooseCopy
  split
  · cases hc
  · rw [List.mem_singleton.mp hc]
  · obtain ⟨before, after, he⟩ := List.append_of_mem hc
    rw [he, List.pairwise_append] at hascending
    have hfind : copies.find? (fun b => reachesAck acks next [seqAfter seq b.payload.length]) =
        some c := by
      refine List.find?_eq_some_iff_append.mpr ⟨hreach, before, after, he, fun b hb => ?_⟩
      have hlt := hascending.2.2 b hb c List.mem_cons_self
      rw [hfirst b (he ▸ List.mem_append_left _ hb) hlt]
      rfl
    rw [hfind]
    rfl

theorem chooseCopy_eq_last (hascending : copies.Pairwise fun a b => a.packet < b.packet)
    (hc : c ∈ copies) (hlast : ∀ b ∈ copies, b.packet ≤ c.packet)
    (hnone : ∀ b ∈ copies, reachesAck acks next [seqAfter seq b.payload.length] = false) :
    chooseCopy acks next seq copies = some c := by
  rw [chooseCopy_eq_getLast? hnone]
  obtain ⟨before, after, rfl⟩ := List.append_of_mem hc
  rw [List.pairwise_append, List.pairwise_cons] at hascending
  cases after with
  | nil => simp
  | cons b after =>
    have hlt := hascending.2.1.1 b List.mem_cons_self
    have hle := hlast b (by simp)
    omega

end

namespace Session

variable {s : Session}

/-- The copies at a sequence number, in the order of their capture. -/
def copiesAt (s : Session) (d : Direction) (seq : UInt32) : List Copy :=
  (placesAt s.packets d seq).filterMap s.copy?

theorem copiesAt_ascending (s : Session) (d : Direction) (seq : UInt32) :
    (s.copiesAt d seq).Pairwise fun a b => a.packet < b.packet := by
  have hplaces : (placesAt s.packets d seq).Pairwise (· < ·) := placesWhere_ascending _ _
  refine hplaces.filterMap _ fun i j hlt a ha b hb => ?_
  obtain ⟨_, -, -, rfl⟩ := copy?_eq_some.mp ha
  obtain ⟨_, -, -, rfl⟩ := copy?_eq_some.mp hb
  exact hlt

theorem isCandidate_iff {d : Direction} {seq : UInt32} {i : Nat} :
    IsCandidate s.packets d seq i ↔ ∃ c ∈ s.copiesAt d seq, c.packet = i := by
  simp only [copiesAt, mem_filterMap_copy?]
  constructor
  · rintro ⟨p, hp, bytes, hseg⟩
    exact ⟨⟨i, bytes⟩, ⟨p, hp, hseg⟩, rfl⟩
  · rintro ⟨c, ⟨p, hp, hseg⟩, rfl⟩
    exact ⟨p, hp, c.payload, hseg⟩

theorem Mirrors.isConfirmed_iff (h : s.Mirrors) {d : Direction} {seq : UInt32} {i : Nat} :
    IsConfirmed s.packets d seq i ↔ ∃ c ∈ s.copiesAt d seq, c.packet = i ∧
      reachesAck (s.acks.get d.opposite) (s.copies d).continuations
        [seqAfter seq c.payload.length] = true := by
  simp only [copiesAt, mem_filterMap_copy?, h.reachesAck_iff]
  constructor
  · rintro ⟨p, hp, bytes, hseg, hlead⟩
    exact ⟨⟨i, bytes⟩, ⟨p, hp, hseg⟩, rfl, hlead⟩
  · rintro ⟨c, ⟨p, hp, hseg⟩, rfl, hlead⟩
    exact ⟨p, hp, c.payload, hseg, hlead⟩

theorem Indexed.resolve_of_chooseCopy (h : s.Indexed) {d : Direction} {seq : UInt32} {c : Copy}
    (hc : chooseCopy (s.acks.get d.opposite) (s.copies d).continuations seq (s.copiesAt d seq) =
      some c) : s.resolve d seq = some c.packet := by
  have hcopies : (seq, s.copiesAt d seq) ∈ s.copies d :=
    h.mem_copies.mpr ⟨List.ne_nil_of_mem (chooseCopy_mem hc), rfl⟩
  exact h.resolve_eq_some.mpr ⟨c, mem_chosen.mpr ⟨_, hcopies, hc⟩, rfl⟩

theorem Indexed.resolve_eq_none_iff (h : s.Indexed) {d : Direction} {seq : UInt32} :
    s.resolve d seq = none ↔ ∀ i, ¬ IsCandidate s.packets d seq i := by
  constructor
  · rintro hnone i ⟨p, hp, bytes, hseg⟩
    obtain ⟨c, hc⟩ := h.exists_chosen (List.mem_of_getElem? hp) hseg
    simp [h.resolve_eq_some.mpr ⟨c, hc, rfl⟩] at hnone
  · intro hnone
    refine Option.eq_none_iff_forall_not_mem.mpr fun i hi => hnone i ?_
    obtain ⟨c, hc, rfl⟩ := h.resolve_eq_some.mp hi
    obtain ⟨p, hp, hseg⟩ := h.of_mem_chosen hc
    exact ⟨p, hp, c.payload, hseg⟩

theorem Mirrors.resolve_of_first (h : s.Mirrors) {d : Direction} {seq : UInt32} {i : Nat}
    (hi : IsConfirmed s.packets d seq i) (hfirst : ∀ j < i, ¬ IsConfirmed s.packets d seq j) :
    s.resolve d seq = some i := by
  obtain ⟨c, hc, rfl, hreach⟩ := h.isConfirmed_iff.mp hi
  refine h.resolve_of_chooseCopy (chooseCopy_eq_first (s.copiesAt_ascending d seq) hc hreach ?_)
  intro b hb hlt
  refine Bool.eq_false_iff.mpr fun hreach => hfirst _ hlt ?_
  exact h.isConfirmed_iff.mpr ⟨b, hb, rfl, hreach⟩

theorem Mirrors.resolve_of_last (h : s.Mirrors) {d : Direction} {seq : UInt32} {i : Nat}
    (hnone : ∀ j, ¬ IsConfirmed s.packets d seq j) (hi : IsCandidate s.packets d seq i)
    (hlast : ∀ j, IsCandidate s.packets d seq j → j ≤ i) : s.resolve d seq = some i := by
  obtain ⟨c, hc, rfl⟩ := isCandidate_iff.mp hi
  refine h.resolve_of_chooseCopy (chooseCopy_eq_last (s.copiesAt_ascending d seq) hc ?_ ?_)
  · exact fun b hb => hlast _ (isCandidate_iff.mpr ⟨b, hb, rfl⟩)
  · intro b hb
    refine Bool.eq_false_iff.mpr fun hreach => hnone b.packet ?_
    exact h.isConfirmed_iff.mpr ⟨b, hb, rfl, hreach⟩

theorem Mirrors.taken_resolve (h : s.Mirrors) (d : Direction) (seq : UInt32) :
    Taken s.packets d seq (s.resolve d seq) where
  none_iff := h.resolve_eq_none_iff
  only i hall := by
    have hi : IsCandidate s.packets d seq i := (hall i).mpr rfl
    cases hchoice : s.resolve d seq with
    | none => exact absurd hi (h.resolve_eq_none_iff.mp hchoice i)
    | some j =>
      obtain ⟨c, hc, rfl⟩ := h.resolve_eq_some.mp hchoice
      obtain ⟨p, hp, hseg⟩ := h.of_mem_chosen hc
      rw [(hall c.packet).mp ⟨p, hp, c.payload, hseg⟩]
  confirmed i hi hfirst := h.resolve_of_first hi hfirst
  last hnone i hi hlast := h.resolve_of_last hnone hi hlast

/-- A direction has no more continuations than the session has packets. -/
theorem Indexed.size_continuations_le (h : s.Indexed) (d : Direction) :
    (s.copies d).continuations.size ≤ s.packets.length := by
  have hmem : ∀ e ∈ s.copies d, e.2 = s.copiesAt d e.1 := fun e he => (h.mem_copies.mp he).2
  have hnodup : (((s.copies d).flatMap (·.2)).map (·.packet)).Nodup := by
    refine List.pairwise_map.mpr (List.pairwise_flatMap.mpr ⟨fun e he => ?_, ?_⟩)
    · rw [hmem e he]
      exact (s.copiesAt_ascending d e.1).imp Nat.ne_of_lt
    · refine (h.copies_ascending d).imp_of_mem fun {e f} he hf hlt a ha b hb hsame => ?_
      rw [hmem e he] at ha
      rw [hmem f hf] at hb
      exact UInt32.ne_of_lt hlt
        (seq_eq_of_packet_eq (mem_filterMap_copy?.mp ha) (mem_filterMap_copy?.mp hb) hsame)
  have hplaces : ((s.copies d).flatMap (·.2)).map (·.packet) ⊆ List.range s.packets.length := by
    intro i hi
    obtain ⟨c, hc, rfl⟩ := List.mem_map.mp hi
    obtain ⟨e, he, hc⟩ := List.mem_flatMap.mp hc
    rw [hmem e he] at hc
    obtain ⟨p, hp, -⟩ := mem_filterMap_copy?.mp hc
    exact List.mem_range.mpr (List.getElem?_eq_some_iff.mp hp).1
  calc (s.copies d).continuations.size
      = (((s.copies d).flatMap (·.2)).map (·.packet)).length := by
        simp [Continuations.size, Copies.continuations, List.flatMap_map, List.length_flatMap]
    _ ≤ (List.range s.packets.length).length := (List.subperm_of_subset hnodup hplaces).length_le
    _ = s.packets.length := List.length_range

end Session

/-- At every sequence number the packet is taken that the acknowledgements call for, and the
search for acknowledged numbers ends with the right answer, at most one step after as many
as there are packets. -/
theorem taken_resolve_and_ends (key : SessionKey) (kind : TransportKind) (ps : List SessionPacket)
    (d : Direction) (seq : UInt32) :
    let s := Session.ofPackets key kind ps
    let acks := s.acks.get d.opposite
    let next := (s.copies d).continuations
    Taken ps d seq (s.resolve d seq) ∧
      ∀ start, ∃ steps ≤ ps.length + 1,
        AckSearch.Ends acks next ⟨[start], []⟩ steps (reachesAck acks next [start]) ∧
          (reachesAck acks next [start] = true ↔ LeadsToAck ps d start) := by
  intro s acks next
  have h : s.Mirrors := Session.mirrors_ofPackets key kind ps
  have hpackets : s.packets = ps := Session.packets_ofPackets key kind ps
  rw [← hpackets]
  refine ⟨h.taken_resolve d seq, fun start => ?_⟩
  obtain ⟨steps, hle, hends⟩ := AckSearch.exists_ends acks next ⟨[start], []⟩
  have hsize : next.size ≤ s.packets.length := h.size_continuations_le d
  refine ⟨steps, ?_, hends, h.reachesAck_iff⟩
  simp only [AckSearch.size, AckSearch.unused, List.length_singleton, List.foldr_nil] at hle
  omega

end HttpCapture
