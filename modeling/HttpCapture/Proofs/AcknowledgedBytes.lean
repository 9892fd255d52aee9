import HttpCapture.Proofs.StreamCoverage
import HttpCapture.Proofs.TakenPackets
import Mathlib.Data.Nat.Find
import Mathlib.Data.List.Permutation

/-! Captured bytes that were acknowledged are in the stream. From a confirmed copy on, the copies
taken follow one another up to an acknowledged number: each ends where the next one starts, and the
next one is confirmed again. A byte of a longer copy that was left out is lost only if that number
is not behind it. -/

namespace HttpCapture

theorem seqAfter_add (seq : UInt32) (m n : Nat) :
    seqAfter seq (m + n) = seqAfter (seqAfter seq m) n := by
  simp only [seqAfter, UInt32.ofNat_add, UInt32.add_assoc]

theorem toNat_seqAfter {seq : UInt32} {n : Nat} (h : seq.toNat + n < 4294967296) :
    (seqAfter seq n).toNat = seq.toNat + n := by
  have hn : (UInt32.ofNat n).toNat = n := by
    rw [UInt32.toNat_ofNat']
    exact Nat.mod_eq_of_lt (by omega)
  rw [seqAfter, UInt32.toNat_add, hn, Nat.mod_eq_of_lt h]

theorem seqAfter_eq_ofNat (seq : UInt32) (n : Nat) :
    seqAfter seq n = UInt32.ofNat (seq.toNat + n) := by
  rw [seqAfter, UInt32.ofNat_add, UInt32.ofNat_toNat]

/-- The packets of a direction are slices of a text that begins at `base`. Each of its bytes was
captured, and the other side acknowledged its end and nothing outside it. -/
structure Acknowledges (ps : List SessionPacket) (d : Direction) (data : Bytes) (base : Nat) :
    Prop where
  fits : base + data.length ≤ 4294967296
  slices : ∀ p ∈ ps, p.IsSlice d base data
  captured : ∀ i < data.length, ∃ p ∈ ps, p.carries d (base + i) = true
  within : ∀ p ∈ ps, p.ack? d.opposite = none ∨
    ∃ n ≤ data.length, p.ack? d.opposite = some (UInt32.ofNat (base + n))
  ended : ∃ p ∈ ps, p.ack? d.opposite = some (UInt32.ofNat (base + data.length))

/-- The packet at place `i` is kept of those that carry payload from `seq` on. -/
inductive IsKept (ps : List SessionPacket) (d : Direction) (seq : UInt32) (i : Nat) : Prop
  /-- It is the first that the other side confirmed. -/
  | first (hconfirmed : IsConfirmed ps d seq i) (hfirst : ∀ j < i, ¬ IsConfirmed ps d seq j)
  /-- It is the last, and none is confirmed. -/
  | last (hcandidate : IsCandidate ps d seq i) (hlast : ∀ j, IsCandidate ps d seq j → j ≤ i)
    (hnone : ∀ j, ¬ IsConfirmed ps d seq j)

/-- The choice among the packets at `seq` does not cost the byte at `position`. -/
inductive SafeByte (ps : List SessionPacket) (d : Direction) (seq : UInt32) (position : Nat) : Prop
  /-- The packet that is kept carries the byte. -/
  | carried {i : Nat} {p : SessionPacket} (hkept : IsKept ps d seq i) (hp : ps[i]? = some p)
    (hcarries : p.carries d position = true)
  /-- The packet that is kept is confirmed, and no acknowledged number lies from its end up to the
  byte. -/
  | regained {i : Nat} {p : SessionPacket} {bytes : Bytes} (hkept : IsKept ps d seq i)
    (hp : ps[i]? = some p) (hseg : p.segment? d = some (seq, bytes))
    (hlead : LeadsToAck ps d (seqAfter seq bytes.length))
    (hunsplit : ∀ n ≤ position - seq.toNat, bytes.length ≤ n →
      ∀ q ∈ ps, q.ack? d.opposite ≠ some (seqAfter seq n))

theorem not_leadsToAck {ps : List SessionPacket} {d : Direction} {x : UInt32}
    (hacks : ∀ p ∈ ps, p.ack? d.opposite ≠ some x)
    (hstarts : ∀ p ∈ ps, ∀ s ∈ p.segment? d, s.1 ≠ x) : ¬ LeadsToAck ps d x := by
  rintro (⟨hp, hack⟩ | ⟨hp, hseg, -⟩)
  · exact hacks _ hp hack
  · exact hstarts _ hp _ hseg rfl

/-- The choice costs no byte of a packet that is kept. -/
theorem IsKept.exists_safeByte {ps : List SessionPacket} {d : Direction} {seq : UInt32} {i x : Nat}
    {p : SessionPacket} {bytes : Bytes} (hkept : IsKept ps d seq i) (hp : ps[i]? = some p)
    (hseg : p.segment? d = some (seq, bytes)) (hlo : seq.toNat ≤ x)
    (hhi : x < seq.toNat + bytes.length) :
    ∃ p ∈ ps, p.carries d x = true ∧ ∀ e ∈ p.segment? d, SafeByte ps d e.1 x := by
  have hcarries : p.carries d x = true := SessionPacket.carries_iff.mpr ⟨seq, bytes, hseg, hlo, hhi⟩
  refine ⟨p, List.mem_of_getElem? hp, hcarries, fun e he => ?_⟩
  obtain rfl := Option.some.inj (hseg.symm.trans he)
  exact .carried hkept hp hcarries

/-- Where packets are captured at a number one of them is kept. -/
theorem exists_isKept {ps : List SessionPacket} {d : Direction} {seq : UInt32} {i : Nat}
    (hi : IsCandidate ps d seq i) : ∃ j, IsKept ps d seq j := by
  classical
  by_cases hsome : ∃ j, IsConfirmed ps d seq j
  · exact ⟨_, .first (Nat.find_spec hsome) fun j => Nat.find_min hsome⟩
  · have hle : ∀ j, IsCandidate ps d seq j → j ≤ ps.length := fun j ⟨p, hp, _⟩ =>
      Nat.le_of_lt (List.getElem?_eq_some_iff.mp hp).1
    exact ⟨Nat.findGreatest (IsCandidate ps d seq) ps.length, .last
      (Nat.findGreatest_spec (hle i hi) hi) (fun j hj => Nat.le_findGreatest (hle j hj) hj)
      (not_exists.mp hsome)⟩

namespace Session

variable {s : Session} {d : Direction} {data : Bytes} {base : Nat}

theorem Indexed.stop_le_of_mem_chosen (h : s.Indexed)
    (hslice : ∀ p ∈ s.packets, p.IsSlice d base data) {seq : UInt32} {c : Copy}
    (hc : (seq, c) ∈ s.chosen d) : seq.toNat + c.payload.length ≤ base + data.length := by
  obtain ⟨p, hp, hseg⟩ := h.of_mem_chosen hc
  have hs : Placed.IsSlice base data ⟨0, seq.toNat, c.payload⟩ :=
    hslice p (List.mem_of_getElem? hp) _ hseg
  exact hs.stop_le (SessionPacket.segment?_eq_some.mp hseg).2.2

theorem holds_of_mem_chosen {seq : UInt32} {c : Copy} (hc : (seq, c) ∈ s.chosen d) {x : Nat}
    (hlo : seq.toNat ≤ x) (hhi : x < seq.toNat + c.payload.length) :
    (s.placed d).any (·.holds x) = true := by
  refine List.any_eq_true.mpr ⟨_, List.mem_map_of_mem hc, ?_⟩
  simp [Placed.holds, hlo, hhi]

/-- From a confirmed copy on, the copies taken hold all positions up to an acknowledged number. The
induction is on what is left of the text behind the copy. -/
theorem Mirrors.exists_acked_run (h : s.Mirrors) (hack : Acknowledges s.packets d data base)
    {seq : UInt32} {c : Copy} (hc : (seq, c) ∈ s.chosen d)
    (hlead : LeadsToAck s.packets d (seqAfter seq c.payload.length)) :
    ∃ n, c.payload.length ≤ n ∧ (∃ p ∈ s.packets, p.ack? d.opposite = some (seqAfter seq n)) ∧
      ∀ x, seq.toNat ≤ x → x < seq.toNat + n → (s.placed d).any (·.holds x) = true := by
  induction hleft : base + data.length - (seq.toNat + c.payload.length) using Nat.strongRecOn
    generalizing seq c with
  | ind left ih =>
  by_cases hacked : ∃ p ∈ s.packets, p.ack? d.opposite = some (seqAfter seq c.payload.length)
  · exact ⟨c.payload.length, Nat.le_refl _, hacked, fun x hlo hhi => holds_of_mem_chosen hc hlo hhi⟩
  · have hfits := hack.fits
    have hstop := h.stop_le_of_mem_chosen hack.slices hc
    have hne : seq.toNat + c.payload.length ≠ base + data.length := by
      intro he
      refine hacked ?_
      rw [seqAfter_eq_ofNat, he]
      exact hack.ended
    cases hlead with
    | acked hp ha => exact absurd ⟨_, hp, ha⟩ hacked
    | @onward _ p bytes hp hseg hlead =>
      have hnat : (seqAfter seq c.payload.length).toNat = seq.toNat + c.payload.length :=
        toNat_seqAfter (by omega)
      obtain ⟨next, hnext⟩ := h.exists_chosen hp hseg
      have hlead' := h.chosen_leads hnext ⟨bytes, mem_payloadsAt.mpr ⟨p, hp, hseg⟩, hlead⟩
      obtain ⟨q, hq, hqseg⟩ := h.of_mem_chosen hnext
      have hpos := List.length_pos_iff.mpr (SessionPacket.segment?_eq_some.mp hqseg).2.2
      obtain ⟨n, hn, ha, hheld⟩ := ih _ (by omega) hnext hlead' rfl
      refine ⟨c.payload.length + n, by omega, ?_, fun x hlo hhi => ?_⟩
      · rwa [seqAfter_add]
      · by_cases hx : x < seq.toNat + c.payload.length
        · exact holds_of_mem_chosen hc hlo hx
        · exact hheld x (by omega) (by omega)

theorem Mirrors.resolve_of_isKept (h : s.Mirrors) {seq : UInt32} {i : Nat}
    (hi : IsKept s.packets d seq i) : s.resolve d seq = some i := by
  cases hi with
  | first hconfirmed hfirst => exact h.resolve_of_first hconfirmed hfirst
  | last hcandidate hlast hnone => exact h.resolve_of_last hnone hcandidate hlast

theorem Mirrors.isKept_of_mem_chosen (h : s.Mirrors) {seq : UInt32} {c : Copy}
    (hc : (seq, c) ∈ s.chosen d) : IsKept s.packets d seq c.packet := by
  obtain ⟨p, hp, hseg⟩ := h.of_mem_chosen hc
  obtain ⟨j, hj⟩ := exists_isKept ⟨p, hp, c.payload, hseg⟩
  have hresolve : s.resolve d seq = some c.packet := h.resolve_eq_some.mpr ⟨c, hc, rfl⟩
  obtain rfl := Option.some.inj (hresolve.symm.trans (h.resolve_of_isKept hj))
  exact hj

theorem Mirrors.exists_chosen_of_isKept (h : s.Mirrors) {seq : UInt32} {i : Nat}
    {p : SessionPacket} (hi : IsKept s.packets d seq i) (hp : s.packets[i]? = some p) :
    ∃ c, (seq, c) ∈ s.chosen d ∧ p.segment? d = some (seq, c.payload) := by
  obtain ⟨c, hc, rfl⟩ := h.resolve_eq_some.mp (h.resolve_of_isKept hi)
  obtain ⟨q, hq, hseg⟩ := h.of_mem_chosen hc
  obtain rfl := Option.some.inj (hp.symm.trans hq)
  exact ⟨c, hc, hseg⟩

/-- A byte that the choice among the packets does not cost is in a copy that is taken. -/
theorem Mirrors.any_holds_of_safeByte (h : s.Mirrors) (hack : Acknowledges s.packets d data base)
    {seq : UInt32} {x : Nat} (hlo : seq.toNat ≤ x) (hsafe : SafeByte s.packets d seq x) :
    (s.placed d).any (·.holds x) = true := by
  cases hsafe with
  | carried hkept hp hcarries =>
    obtain ⟨c, hc, hseg⟩ := h.exists_chosen_of_isKept hkept hp
    obtain ⟨_, _, hseg', _, hhi⟩ := SessionPacket.carries_iff.mp hcarries
    obtain ⟨rfl, rfl⟩ := Prod.mk.inj (Option.some.inj (hseg'.symm.trans hseg))
    exact holds_of_mem_chosen hc hlo hhi
  | regained hkept hp hseg hlead hunsplit =>
    obtain ⟨c, hc, hseg'⟩ := h.exists_chosen_of_isKept hkept hp
    obtain ⟨-, rfl⟩ := Prod.mk.inj (Option.some.inj (hseg.symm.trans hseg'))
    obtain ⟨n, hn, ⟨q, hq, hacked⟩, hheld⟩ := h.exists_acked_run hack hc hlead
    have hlong : x < seq.toNat + n := Nat.lt_of_not_le fun hle =>
      hunsplit n (by omega) hn q hq hacked
    exact hheld x hlo hlong

/-- A byte in a copy that is taken is carried by the packet that is kept there. -/
theorem Mirrors.exists_safeByte_of_any_holds (h : s.Mirrors) {x : Nat}
    (hx : (s.placed d).any (·.holds x) = true) :
    ∃ p ∈ s.packets, p.carries d x = true ∧
      ∀ e ∈ p.segment? d, SafeByte s.packets d e.1 x := by
  obtain ⟨_, hy, hholds⟩ := List.any_eq_true.mp hx
  obtain ⟨⟨seq, c⟩, hc, rfl⟩ := List.mem_map.mp hy
  obtain ⟨p, hp, hseg⟩ := h.of_mem_chosen hc
  simp only [Placed.holds, Bool.and_eq_true, decide_eq_true_eq] at hholds
  exact (h.isKept_of_mem_chosen hc).exists_safeByte hp hseg hholds.1 hholds.2

theorem Mirrors.buildStream_bytes_eq_iff (h : s.Mirrors) (htcp : s.isTcp = true)
    (hack : Acknowledges s.packets d data base) :
    (s.buildStream d).bytes = data ↔
      ∀ i < data.length, ∃ p ∈ s.packets, p.carries d (base + i) = true ∧
        ∀ e ∈ p.segment? d, SafeByte s.packets d e.1 (base + i) := by
  rw [h.bytes_buildStream htcp hack.slices, bytesAt_eq_self_iff]
  refine forall₂_congr fun i _ => ⟨h.exists_safeByte_of_any_holds, ?_⟩
  rintro ⟨p, hp, hcarries, hsafe⟩
  obtain ⟨seq, bytes, hseg, hlo, -⟩ := SessionPacket.carries_iff.mp hcarries
  exact h.any_holds_of_safeByte hack hlo (hsafe _ hseg)

end Session

/-- Acknowledged bytes are lost only to the choice among packets. When the packets of a direction
are slices of a text that was captured and acknowledged to its end, the stream is the whole text
exactly if each byte is carried by a packet such that the choice among those at its number does not
cost the byte. -/
theorem buildStream_bytes_eq_iff_of_acknowledged (key : SessionKey) (ps : List SessionPacket)
    (d : Direction) (data : Bytes) (base : Nat) (hack : Acknowledges ps d data base) :
    ((Session.ofPackets key .tcp ps).buildStream d).bytes = data ↔
      ∀ i < data.length, ∃ p ∈ ps, p.carries d (base + i) = true ∧
        ∀ s ∈ p.segment? d, SafeByte ps d s.1 (base + i) := by
  have hpackets := Session.packets_ofPackets key .tcp ps
  have hiff := (Session.mirrors_ofPackets key .tcp ps).buildStream_bytes_eq_iff
    (Session.isTcp_ofPackets key ps) (hpackets.symm ▸ hack)
  rwa [hpackets] at hiff

/-- A shorter copy of a segment costs nothing if it was captured after the confirmed whole one, or
before it and was never confirmed. In the last capture, which goes up to the very end of the
sequence numbers, a segment was sent again together with new data and the short copy is the one that
is kept: the packet after it has the rest. -/
theorem buildStream_bytes_eq_of_kept :
    let up (seq : UInt32) (bytes : Bytes) := SessionPacket.sample .uplink seq 0 bytes
    let ack (n : UInt32) := SessionPacket.sample .downlink 9 n []
    let data : Bytes := [0, 1, 2, 3, 4, 5, 6, 7]
    let cut := [up 100 data, up 100 [0, 1, 2, 3], ack 104, ack 108]
    let unconfirmed := [up 100 [0, 1, 2, 3], up 100 data, ack 106, ack 108]
    let coalesced := [up 4294967288 [0, 1], up 4294967288 [0, 1, 2, 3, 4],
      up 4294967290 [2, 3, 4, 5, 6, 7], ack 0]
    (Acknowledges cut .uplink data 100 ∧
        ((Session.ofPackets .sample .tcp cut).buildStream .uplink).bytes = data) ∧
      (Acknowledges unconfirmed .uplink data 100 ∧
        ((Session.ofPackets .sample .tcp unconfirmed).buildStream .uplink).bytes = data) ∧
      Acknowledges coalesced .uplink data 4294967288 ∧
        ((Session.ofPackets .sample .tcp coalesced).buildStream .uplink).bytes = data := by
  intro up ack data cut unconfirmed coalesced
  have hcut : Acknowledges cut .uplink data 100 :=
    ⟨by decide, by decide, by decide, by decide, by decide⟩
  have hunconfirmed : Acknowledges unconfirmed .uplink data 100 :=
    ⟨by decide, by decide, by decide, by decide, by decide⟩
  have hcoalesced : Acknowledges coalesced .uplink data 4294967288 :=
    ⟨by decide, by decide, by decide, by decide, by decide⟩
  have hwhole : (up 100 data).segment? .uplink = some (100, data) := by decide
  refine ⟨⟨hcut, ?_⟩, ⟨hunconfirmed, ?_⟩, hcoalesced, ?_⟩
  · have hkept : IsKept cut .uplink 100 0 := .first
      ⟨_, rfl, data, hwhole, .acked (p := ack 108) (by decide) (by decide)⟩ (by simp)
    refine (buildStream_bytes_eq_iff_of_acknowledged .sample cut .uplink data 100 hcut).mpr ?_
    exact fun i hi => hkept.exists_safeByte rfl hwhole (Nat.le_add_right _ i)
      (Nat.add_lt_add_left hi 100)
  · have hstop : ¬ LeadsToAck unconfirmed .uplink 104 := not_leadsToAck (by decide) (by decide)
    have hkept : IsKept unconfirmed .uplink 100 1 := by
      refine .first
        ⟨_, rfl, data, hwhole, .acked (p := ack 108) (by decide) (by decide)⟩ fun j hj => ?_
      obtain rfl : j = 0 := by omega
      rintro ⟨_, ⟨⟩, bytes, hseg, hlead⟩
      obtain ⟨-, rfl⟩ := Prod.mk.inj (Option.some.inj hseg)
      exact hstop hlead
    refine (buildStream_bytes_eq_iff_of_acknowledged .sample unconfirmed .uplink data 100
      hunconfirmed).mpr ?_
    exact fun i hi => hkept.exists_safeByte rfl hwhole (Nat.le_add_right _ i)
      (Nat.add_lt_add_left hi 100)
  · have hend : LeadsToAck coalesced .uplink 0 := .acked (p := ack 0) (by decide) (by decide)
    have hshort : (up 4294967288 [0, 1]).segment? .uplink = some (4294967288, [0, 1]) := by decide
    have hrest : (up 4294967290 [2, 3, 4, 5, 6, 7]).segment? .uplink =
      some (4294967290, [2, 3, 4, 5, 6, 7]) := by decide
    have hlead : LeadsToAck coalesced .uplink 4294967290 := .onward (by decide) hrest hend
    have hkept : IsKept coalesced .uplink 4294967288 0 :=
      .first ⟨_, rfl, [0, 1], hshort, hlead⟩ (by simp)
    have hkeptRest : IsKept coalesced .uplink 4294967290 2 := by
      have hstarts : ∀ j < 2, ∀ p ∈ coalesced[j]?, ∀ s ∈ p.segment? .uplink,
          s.1 ≠ 4294967290 := by decide
      refine .first ⟨_, rfl, _, hrest, hend⟩ fun j hj => ?_
      rintro ⟨p, hp, bytes, hseg, -⟩
      exact hstarts j hj p hp _ hseg rfl
    refine (buildStream_bytes_eq_iff_of_acknowledged .sample coalesced .uplink data 4294967288
      hcoalesced).mpr fun i hi => ?_
    by_cases hi' : i < 5
    · have hcarries : ∀ i < 5, (up 4294967288 [0, 1, 2, 3, 4]).carries .uplink
          (4294967288 + i) = true := by decide
      have hunsplit : ∀ i < 5, ∀ n ≤ 4294967288 + i - (4294967288 : UInt32).toNat, 2 ≤ n →
          ∀ q ∈ coalesced, q.ack? .downlink ≠ some (seqAfter 4294967288 n) := by decide
      refine ⟨up 4294967288 [0, 1, 2, 3, 4], by decide, hcarries i hi', ?_⟩
      rintro _ ⟨⟩
      exact .regained hkept rfl hshort hlead (hunsplit i hi')
    · have hlo : (4294967290 : UInt32).toNat ≤ 4294967288 + i := by
        rw [show (4294967290 : UInt32).toNat = 4294967290 from rfl]
        omega
      have hhi : 4294967288 + i < (4294967290 : UInt32).toNat + 6 := Nat.add_lt_add_left hi _
      exact hkeptRest.exists_safeByte rfl hrest hlo hhi

/-- The first confirmed copy is taken even if a later one carries more: after the number 104 was
acknowledged the copy up to it is confirmed. Where none is confirmed the last one is taken even if
an earlier one carries more. -/
theorem acknowledged_bytes_lost :
    let up (seq : UInt32) (bytes : Bytes) := SessionPacket.sample .uplink seq 0 bytes
    let ack (n : UInt32) := SessionPacket.sample .downlink 0 n []
    let split := [up 100 [0, 1, 2, 3], up 100 [0, 1, 2, 3, 4, 5, 6, 7], ack 104, ack 108]
    let unsettled := [up 100 [0, 1, 2, 3, 4, 5], up 100 [0, 1, 2], up 105 [5, 6, 7], ack 108]
    let data : Bytes := [0, 1, 2, 3, 4, 5, 6, 7]
    Acknowledges split .uplink data 100 ∧ Acknowledges unsettled .uplink data 100 ∧
      ((Session.ofPackets .sample .tcp split).buildStream .uplink).bytes = [0, 1, 2, 3] ∧
      ((Session.ofPackets .sample .tcp unsettled).buildStream .uplink).bytes =
        [0, 1, 2, 5, 6, 7] := by
  intro up ack split unsettled data
  refine ⟨⟨by decide, by decide, by decide, by decide, by decide⟩,
    ⟨by decide, by decide, by decide, by decide, by decide⟩, by cbv, by cbv⟩

end HttpCapture
