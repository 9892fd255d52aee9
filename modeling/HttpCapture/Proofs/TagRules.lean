import HttpCapture.Proofs.SessionGroups
import HttpCapture.Proofs.TagMemory

/-! Tags by the packets captured before. The walks come to a packet with what the packets in front
of it leave behind, so that each tag is given by a rule over these packets alone. -/

namespace HttpCapture

namespace Losses

/-- The losses that a packet, tagged by history, leaves open. -/
def see (l : Losses) (e : SessionPacket × Option TcpTag) : Losses :=
  match e.1.packet.tcp?, e.2 with
  | some info, some tag => (l.step e.1.direction info e.1.packet.length tag).2
  | _, _ => l

/-- The tag of a packet by the losses that are open. -/
def tagOf (l : Losses) (e : SessionPacket × Option TcpTag) : Option TcpTag :=
  match e.1.packet.tcp?, e.2 with
  | some info, some tag => some (l.step e.1.direction info e.1.packet.length tag).1
  | _, tag => tag

theorem follows_step {before : List SessionPacket} {p : SessionPacket} {info : TcpInfo}
    {tag : TcpTag} (h : TagFollows before p info tag) (l : Losses) (d : Direction) (length : Nat) :
    TagFollows before p info (l.step d info length tag).1 := by
  cases tag
  case data =>
    unfold step
    dsimp only
    split
    · exact h.recover (.inl ⟨rfl, rfl⟩)
    · exact h
  case ack =>
    unfold step
    dsimp only
    split
    · exact h.recover (.inr ⟨rfl, rfl⟩)
    · exact h
  all_goals exact h

end Losses

/-- What a walk puts out at a place, by its memory of what stands in front. -/
theorem getElem?_walk {σ α β : Type} {walk : σ → List α → List β} {see : σ → α → σ}
    {out : σ → α → β} (hnil : ∀ s, walk s [] = [])
    (hcons : ∀ s a as, walk s (a :: as) = out s a :: walk (see s a) as) (s : σ) (as : List α)
    (i : Nat) : (walk s as)[i]? = as[i]?.map (out ((as.take i).foldl see s)) := by
  induction as generalizing s i with
  | nil => simp [hnil]
  | cons a as ih =>
    rw [hcons]
    cases i with
    | zero => rfl
    | succ i => simpa using ih (see s a) i

theorem getElem?_historyTags (h : TagHistory) (ps : List SessionPacket) (i : Nat) :
    (historyTags h ps)[i]? = ps[i]?.map ((ps.take i).foldl TagHistory.see h).tagOf := by
  refine getElem?_walk (fun _ => rfl) (fun h p ps => ?_) h ps i
  unfold TagHistory.see TagHistory.tagOf
  rw [historyTags]
  cases p.packet.tcp? <;> rfl

theorem getElem?_recoveryTags (l : Losses) (es : List (SessionPacket × Option TcpTag)) (i : Nat) :
    (recoveryTags l es)[i]? = es[i]?.map ((es.take i).foldl Losses.see l).tagOf := by
  refine getElem?_walk (fun _ => rfl) (fun l e es => ?_) l es i
  obtain ⟨p, tag⟩ := e
  cases hinfo : p.packet.tcp? <;> cases tag <;>
    simp [recoveryTags, Losses.see, Losses.tagOf, hinfo]

/-- What the first walk remembers of the packets in front of a place. -/
def historyAt (ps : List SessionPacket) (i : Nat) : TagHistory :=
  (ps.take i).foldl TagHistory.see .empty

/-- The packets of a run with their tags by history. -/
def taggedByHistory (ps : List SessionPacket) : List (SessionPacket × Option TcpTag) :=
  ps.zip (historyTags .empty ps)

/-- The losses that are open at a place. -/
def lossesAt (ps : List SessionPacket) (i : Nat) : Losses :=
  ((taggedByHistory ps).take i).foldl Losses.see .empty

theorem getElem?_taggedByHistory (ps : List SessionPacket) (i : Nat) :
    (taggedByHistory ps)[i]? = ps[i]?.map fun p => (p, (historyAt ps i).tagOf p) := by
  rw [taggedByHistory, List.zip, List.getElem?_zipWith, getElem?_historyTags]
  cases ps[i]? <;> rfl

theorem getElem?_annotate {s : Session} (hs : s.isTcp = true) (i : Nat) :
    s.annotate.packets[i]? = s.packets[i]?.map fun p =>
      { p with tag := (lossesAt s.packets i).tagOf (p, (historyAt s.packets i).tagOf p) } := by
  have htag : (tcpTags s.packets)[i]? = s.packets[i]?.map fun p =>
      (lossesAt s.packets i).tagOf (p, (historyAt s.packets i).tagOf p) := by
    rw [tcpTags, plainTags_eq_historyTags]
    refine (getElem?_recoveryTags .empty (taggedByHistory s.packets) i).trans ?_
    rw [getElem?_taggedByHistory, Option.map_map]
    rfl
  rw [Session.annotate, if_pos hs, List.getElem?_zipWith, htag]
  cases s.packets[i]? <;> rfl

theorem follows_annotate {s : Session} (hs : s.isTcp = true) {i : Nat} {p : SessionPacket}
    {info : TcpInfo} (hp : s.packets[i]? = some p) (hinfo : p.packet.tcp? = some info) :
    ∃ tag, s.annotate.packets[i]? = some { p with tag := some tag } ∧
      TagFollows (s.packets.take i) p info tag := by
  have hremembers : (historyAt s.packets i).Remembers (s.packets.take i) :=
    TagHistory.remembers_foldl_see TagHistory.remembers_empty _
  refine ⟨_, ?_, Losses.follows_step (hremembers.follows hinfo) (lossesAt s.packets i) p.direction
    p.packet.length⟩
  rw [getElem?_annotate hs, hp]
  simp [TagHistory.tagOf, Losses.tagOf, hinfo]

theorem Session.IsRun.tcp?_isSome {s : Session} (h : s.IsRun) (hs : s.isTcp = true)
    {p : SessionPacket} (hp : p ∈ s.packets) : ∃ info, p.packet.tcp? = some info := by
  have hkind : p.packet.kind = .tcp := by
    have hkeyed := h.keyed p hp
    simp_all [Packet.isOf, isTcp]
  unfold Packet.kind at hkind
  unfold Packet.tcp?
  cases htransport : p.packet.transport with
  | tcp info => exact ⟨info, rfl⟩
  | udp => simp [htransport] at hkind

theorem isRun_of_mem_groupPackets {ps : List Packet} {s : Session} (hs : s ∈ groupPackets ps) :
    s.IsRun := by
  obtain ⟨runs, hruns, hdivides⟩ := Divides.exists_divides ps
  rw [← hruns] at hs
  obtain ⟨run, hrun, rfl⟩ := List.mem_map.mp hs
  exact hdivides.isRun run hrun

/-- All packets of the connections of a capture are tagged. In any session, the tag of a packet is
what the packets before it make it. -/
theorem tags_follow_history :
    (∀ captured, ∀ s ∈ groupPackets captured, s.isTcp = true →
      ∀ p ∈ s.annotate.packets, p.tag.isSome = true) ∧
    ∀ s : Session, s.isTcp = true → ∀ i p info, s.packets[i]? = some p →
      p.packet.tcp? = some info → ∃ tag, s.annotate.packets[i]? = some { p with tag := some tag } ∧
        TagFollows (s.packets.take i) p info tag := by
  refine ⟨fun captured s hmem hs p hp => ?_, fun s hs i p info => follows_annotate hs⟩
  obtain ⟨i, hi⟩ := List.mem_iff_getElem?.mp hp
  obtain ⟨q, hq, -⟩ := Option.map_eq_some_iff.mp ((getElem?_annotate hs i).symm.trans hi)
  obtain ⟨info, hinfo⟩ := (isRun_of_mem_groupPackets hmem).tcp?_isSome hs (List.mem_of_getElem? hq)
  obtain ⟨tag, htag, -⟩ := follows_annotate hs hq hinfo
  rw [Option.some.inj (hi.symm.trans htag)]
  rfl

/-- Data that is sent again, acknowledged, and followed by a probe. -/
theorem tags_follow_history_of_probe :
    let ps : List SessionPacket :=
      [.sample .uplink 100 900 [1, 2, 3], .sample .uplink 100 900 [1, 2, 3],
        .sample .downlink 900 103 [], .sample .uplink 102 900 []]
    let probe := SessionPacket.sample .uplink 102 900 []
    ∃ s ∈ groupPackets (ps.map (·.packet)), s.isTcp = true ∧ s.packets = ps ∧
      s.annotate.packets.map (·.tag) =
        [some .data, some .dataDup, some .ackRecover, some .keepAlive] ∧
      (∀ p ∈ s.annotate.packets, p.tag.isSome = true) ∧
      ∃ tag, s.annotate.packets[3]? = some { probe with tag := some tag } ∧
        TagFollows (s.packets.take 3) probe ⟨102, 900, .ofBits 16, 65535⟩ tag := by
  intro ps probe
  have hgroups : (groupPackets (ps.map (·.packet))).map (fun s => (s.isTcp, s.packets,
      s.annotate.packets.map (·.tag))) =
        [(true, ps, [some .data, some .dataDup, some .ackRecover, some .keepAlive])] := by
    decide +kernel
  obtain ⟨s, rest, hrun, hs, -⟩ := List.map_eq_cons_iff.mp hgroups
  simp only [Prod.mk.injEq] at hs
  obtain ⟨htcp, hpackets, htags⟩ := hs
  have hmem : s ∈ groupPackets (ps.map (·.packet)) := hrun ▸ List.mem_cons_self
  obtain ⟨htagged, hfollows⟩ := tags_follow_history
  exact ⟨s, hmem, htcp, hpackets, htags, htagged _ s hmem htcp,
    hfollows s htcp 3 probe _ (by rw [hpackets]; rfl) rfl⟩

end HttpCapture
