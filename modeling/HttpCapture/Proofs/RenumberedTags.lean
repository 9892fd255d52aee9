import HttpCapture.Proofs.SequenceShift
import HttpCapture.Proofs.TagPasses

/-! Tags under other initial sequence numbers. All that is remembered of packets is compared only
with numbers that count the bytes of the same direction. Adding a constant to all of these moves
what is remembered and changes no answer, also where numbers go past 2^32. The copy taken at a
number is likewise the one taken at the moved number. -/

namespace HttpCapture

/-- Sequence numbers moved by a constant. -/
def moveNumbers (k : UInt32) (numbers : List UInt32) : List UInt32 := numbers.map (· + k)

theorem contains_moveNumbers (k x : UInt32) (numbers : List UInt32) :
    (moveNumbers k numbers).contains (x + k) = numbers.contains x := by
  rw [Bool.eq_iff_iff]
  simp [moveNumbers]

theorem filter_moveNumbers (k x : UInt32) (numbers : List UInt32) :
    (moveNumbers k numbers).filter (· != x + k) = moveNumbers k (numbers.filter (· != x)) := by
  have hsame : ∀ y, (y + k != x + k) = (y != x) := fun y => by simp [bne]
  simp [moveNumbers, List.filter_map, Function.comp_def, hsame]

/-- Windows as they are listed when the acknowledgements that carried them are moved. -/
def moveWindows (k : UInt32) (windows : List ((UInt32 × TcpFlags) × UInt16)) :
    List ((UInt32 × TcpFlags) × UInt16) :=
  windows.map fun e => ((e.1.1 + k, e.1.2), e.2)

theorem lookup_moveWindows (k ack : UInt32) (flags : TcpFlags)
    (windows : List ((UInt32 × TcpFlags) × UInt16)) :
    (moveWindows k windows).lookup (ack + k, flags) = windows.lookup (ack, flags) := by
  induction windows with
  | nil => rfl
  | cons e windows ih =>
    obtain ⟨⟨number, others⟩, window⟩ := e
    have hkey :
        ((ack + k, flags) == (number + k, others)) = ((ack, flags) == (number, others)) := by
      rw [Bool.eq_iff_iff]
      simp
    simp only [moveWindows, List.map_cons, List.lookup_cons, hkey]
    rw [← ih]
    rfl

namespace Sides

variable {α : Type}

/-- What each side has to do with the other's bytes. -/
def swap (s : Sides α) : Sides α := ⟨s.downlink, s.uplink⟩

/-- The contents of each side moved by the constant of that side. -/
def move (s : Sides α) (f : UInt32 → α → α) (k : Sides UInt32) : Sides α :=
  ⟨f k.uplink s.uplink, f k.downlink s.downlink⟩

theorem get_move (s : Sides α) (f : UInt32 → α → α) (k : Sides UInt32) (d : Direction) :
    (s.move f k).get d = f (k.get d) (s.get d) := by
  cases d <;> rfl

/-- A change of one side's contents that the constant of this side does not disturb. -/
theorem move_modify {s : Sides α} {f : UInt32 → α → α} {k : Sides UInt32} {d : Direction}
    {change changed : α → α} (h : ∀ a, f (k.get d) (change a) = changed (f (k.get d) a)) :
    (s.modify d change).move f k = (s.move f k).modify d changed := by
  cases d <;> simp only [modify, move, get] at h ⊢ <;> rw [h]

variable {s : Sides (List UInt32)} {k : Sides UInt32} {d : Direction} {x y : UInt32}

theorem contains_move (h : y = x + k.get d) :
    ((s.move moveNumbers k).get d).contains y = (s.get d).contains x := by
  rw [h, get_move, contains_moveNumbers]

theorem move_cons (h : y = x + k.get d) :
    (s.move moveNumbers k).modify d (y :: ·) = (s.modify d (x :: ·)).move moveNumbers k := by
  subst h
  refine (move_modify fun numbers => ?_).symm
  rfl

theorem move_note (h : y = x + k.get d) :
    ((s.move moveNumbers k).modify d fun l => if l.contains y then l else y :: l) =
      (s.modify d fun l => if l.contains x then l else x :: l).move moveNumbers k := by
  subst h
  refine (move_modify fun numbers => ?_).symm
  rw [contains_moveNumbers]
  split <;> rfl

theorem move_filter (h : y = x + k.get d) :
    (s.move moveNumbers k).modify d (·.filter (· != y)) =
      (s.modify d (·.filter (· != x))).move moveNumbers k := by
  subst h
  exact (move_modify fun numbers => (filter_moveNumbers _ x numbers).symm).symm

end Sides

/-- The transport header under moved numbers. -/
def TcpInfo.renumber (k : Sides UInt32) (d : Direction) (info : TcpInfo) : TcpInfo :=
  { info with seq := info.seq + k.get d, ack := info.ack + k.swap.get d }

namespace TcpInfo

variable (k : Sides UInt32) (d : Direction) (info : TcpInfo)

@[simp] theorem flags_renumber : (info.renumber k d).flags = info.flags := rfl

theorem seq_renumber : (info.renumber k d).seq = info.seq + k.get d.side := by
  cases d <;> rfl

theorem ack_renumber : (info.renumber k d).ack = info.ack + k.swap.get d.side := by
  cases d <;> rfl

-- The other side counts the same bytes where it keeps its acknowledgements,
-- and the other way round.
theorem seq_renumber_opposite :
    (info.renumber k d).seq = info.seq + k.swap.get d.side.opposite := by
  cases d <;> rfl

theorem ack_renumber_opposite :
    (info.renumber k d).ack = info.ack + k.get d.side.opposite := by
  cases d <;> rfl

end TcpInfo

namespace SessionPacket

variable (k : Sides UInt32) (p : SessionPacket)

@[simp] theorem direction_renumber : (p.renumber k).direction = p.direction := rfl

@[simp] theorem payload_renumber : (p.renumber k).packet.payload = p.packet.payload := rfl

@[simp] theorem length_renumber : (p.renumber k).packet.length = p.packet.length := rfl

@[simp] theorem tcp?_renumber :
    (p.renumber k).packet.tcp? = p.packet.tcp?.map (·.renumber k p.direction) := by
  unfold renumber Packet.tcp? TcpInfo.renumber
  cases p.packet.transport with
  | udp => rfl
  | tcp info => cases p.direction <;> rfl

end SessionPacket

namespace TagHistory

/-- What is remembered of moved packets. -/
def renumber (k : Sides UInt32) (h : TagHistory) : TagHistory where
  data := h.data.move moveNumbers k
  windows := h.windows.move moveWindows k.swap
  probes := h.probes.move moveNumbers k.swap

variable (k : Sides UInt32) (h : TagHistory) (d : Direction) (info : TcpInfo)

theorem ackTag_renumber :
    (h.renumber k).ackTag d.side (info.renumber k d) = h.ackTag d.side info := by
  have hprobe : ((h.renumber k).probes.get d.side.opposite).contains (info.renumber k d).seq =
      (h.probes.get d.side.opposite).contains info.seq :=
    Sides.contains_move (info.seq_renumber_opposite k d)
  have hwindow : ((h.renumber k).windows.get d.side).lookup (ackKey (info.renumber k d)) =
      (h.windows.get d.side).lookup (ackKey info) := by
    rw [renumber, Sides.get_move, ackKey, info.ack_renumber k d, lookup_moveWindows]
    rfl
  rw [ackTag, hprobe, hwindow]
  rfl

theorem step_renumber (hasData : Bool) :
    (h.renumber k).step d (info.renumber k d) hasData =
      ((h.step d info hasData).1, (h.step d info hasData).2.renumber k) := by
  have hseen : ((h.renumber k).data.get d.side).contains (info.renumber k d).seq =
      (h.data.get d.side).contains info.seq :=
    Sides.contains_move (info.seq_renumber k d)
  have hdata : (h.renumber k).data.modify d.side ((info.renumber k d).seq :: ·) =
      (h.data.modify d.side (info.seq :: ·)).move moveNumbers k :=
    Sides.move_cons (info.seq_renumber k d)
  have hwindows : (h.renumber k).windows.modify d.side
        ((ackKey (info.renumber k d), (info.renumber k d).window) :: ·) =
      (h.windows.modify d.side ((ackKey info, info.window) :: ·)).move moveWindows k.swap := by
    refine (Sides.move_modify fun windows => ?_).symm
    rw [ackKey.eq_1 (info.renumber k d), info.ack_renumber k d]
    rfl
  have hprobes : (h.renumber k).probes.modify d.side (((info.renumber k d).ack - 1) :: ·) =
      (h.probes.modify d.side ((info.ack - 1) :: ·)).move moveNumbers k.swap := by
    refine Sides.move_cons ?_
    rw [info.ack_renumber k d]
    simp only [UInt32.sub_eq_add_neg, UInt32.add_assoc, UInt32.add_comm (k.swap.get _)]
  unfold step
  simp only [ackTag_renumber, hseen, hdata, hwindows, hprobes, TcpInfo.flags_renumber]
  split
  · rfl
  · split
    · rfl
    · split
      · rfl
      · split
        · split <;> rfl
        · rfl

end TagHistory

theorem historyTags_renumber (k : Sides UInt32) (h : TagHistory) (ps : List SessionPacket) :
    historyTags (h.renumber k) (ps.map (·.renumber k)) = historyTags h ps := by
  induction ps generalizing h with
  | nil => rfl
  | cons p ps ih =>
    simp only [List.map_cons, historyTags, SessionPacket.tcp?_renumber]
    cases p.packet.tcp? with
    | none => exact congrArg (none :: ·) (ih h)
    | some info =>
      simp only [Option.map_some, SessionPacket.direction_renumber, SessionPacket.payload_renumber,
        TagHistory.step_renumber, ih]

namespace Losses

/-- The open losses of moved packets. -/
def renumber (k : Sides UInt32) (l : Losses) : Losses where
  data := l.data.move moveNumbers k
  acks := l.acks.move moveNumbers k.swap

theorem step_renumber (k : Sides UInt32) (l : Losses) (d : Direction) (info : TcpInfo)
    (length : Nat) (tag : TcpTag) :
    (l.renumber k).step d (info.renumber k d) length tag =
      ((l.step d info length tag).1, (l.step d info length tag).2.renumber k) := by
  cases tag
  case dataDup =>
    have hstop : (info.renumber k d).seq + UInt32.ofNat length =
        info.seq + UInt32.ofNat length + k.get d.side := by
      rw [info.seq_renumber k d]
      exact seqAfter_add_right _ _ _
    exact congrArg (fun data => (TcpTag.dataDup, Losses.mk data _)) (Sides.move_note hstop)
  case ackDup =>
    exact congrArg (fun acks => (TcpTag.ackDup, Losses.mk _ acks))
      (Sides.move_note (info.ack_renumber k d))
  case data =>
    have hopen : ((l.renumber k).acks.get d.side.opposite).contains
        (info.renumber k d).seq =
          (l.acks.get d.side.opposite).contains info.seq :=
      Sides.contains_move (info.seq_renumber_opposite k d)
    simp only [step, hopen]
    split
    · exact congrArg (fun acks => (TcpTag.dataRecover, Losses.mk _ acks))
        (Sides.move_filter (info.seq_renumber_opposite k d))
    · rfl
  case ack =>
    have hopen : ((l.renumber k).data.get d.side.opposite).contains
        (info.renumber k d).ack =
          (l.data.get d.side.opposite).contains info.ack :=
      Sides.contains_move (info.ack_renumber_opposite k d)
    simp only [step, hopen]
    split
    · exact congrArg (fun data => (TcpTag.ackRecover, Losses.mk data _))
        (Sides.move_filter (info.ack_renumber_opposite k d))
    · rfl
  all_goals rfl

end Losses

theorem recoveryTags_renumber (k : Sides UInt32) (l : Losses)
    (tagged : List (SessionPacket × Option TcpTag)) :
    recoveryTags (l.renumber k) (tagged.map (Prod.map (SessionPacket.renumber k) id)) =
      recoveryTags l tagged := by
  induction tagged generalizing l with
  | nil => rfl
  | cons e tagged ih =>
    obtain ⟨p, tag⟩ := e
    simp only [List.map_cons, Prod.map_apply, id_eq, recoveryTags, SessionPacket.tcp?_renumber]
    cases p.packet.tcp? with
    | none => exact congrArg (tag :: ·) (ih l)
    | some info =>
      cases tag with
      | none => exact congrArg (none :: ·) (ih l)
      | some tag =>
        simp only [Option.map_some, SessionPacket.direction_renumber,
          SessionPacket.length_renumber, Losses.step_renumber, ih]

theorem tcpTags_renumber (k : Sides UInt32) (ps : List SessionPacket) :
    tcpTags (ps.map (·.renumber k)) = tcpTags ps := by
  have hhistory : historyTags .empty (ps.map (·.renumber k)) = historyTags .empty ps :=
    historyTags_renumber k .empty ps
  have hrecovery := recoveryTags_renumber k .empty (ps.zip (historyTags .empty ps))
  rw [← List.zip_map_left] at hrecovery
  rw [tcpTags, tcpTags, plainTags_eq_historyTags, plainTags_eq_historyTags, hhistory]
  exact hrecovery

namespace Session

theorem tags_annotate_renumber (key : SessionKey) (kind : TransportKind) (ps : List SessionPacket)
    (k : Sides UInt32) :
    (ofPackets key kind (ps.map (·.renumber k))).annotate.packets.map (·.tag) =
      (ofPackets key kind ps).annotate.packets.map (·.tag) := by
  have htcp : ∀ qs, (ofPackets key kind qs).isTcp = (new key kind).isTcp := fun qs => by
    rw [isTcp, isTcp, ofPackets, transport_foldl_push]
  unfold annotate
  rw [htcp, htcp]
  split
  · simp only [packets_ofPackets, tcpTags_renumber, List.map_zipWith, List.zipWith_map_left]
  · simp only [packets_ofPackets, List.map_map]
    rfl

theorem resolve_renumber (key : SessionKey) (kind : TransportKind) (ps : List SessionPacket)
    (k : Sides UInt32) {d : Direction} (hd : d ≠ .unknown) (seq : UInt32) :
    (ofPackets key kind (ps.map (·.renumber k))).resolve d (seq + k.get d) =
      (ofPackets key kind ps).resolve d seq := by
  refine Option.ext fun i => ?_
  rw [(indexed_ofPackets key kind _).resolve_eq_some,
    (indexed_ofPackets key kind ps).resolve_eq_some]
  exact exists_congr fun c => and_congr_left' (mem_chosen_renumber key kind ps k hd seq c)

end Session

/-- Adding a constant to the numbers of a direction, and to the other side's acknowledgements of
them, changes neither the tag of any packet nor the packet taken at any number of that direction. -/
theorem annotate_resolve_renumber (key : SessionKey) (kind : TransportKind)
    (ps : List SessionPacket) (k : Sides UInt32) :
    let s := Session.ofPackets key kind ps
    let moved := Session.ofPackets key kind (ps.map (·.renumber k))
    moved.annotate.packets.map (·.tag) = s.annotate.packets.map (·.tag) ∧
      ∀ seq, moved.resolve .uplink (seq + k.uplink) = s.resolve .uplink seq ∧
        moved.resolve .downlink (seq + k.downlink) = s.resolve .downlink seq := by
  intro s moved
  refine ⟨Session.tags_annotate_renumber key kind ps k, fun seq => ⟨?_, ?_⟩⟩
  · exact Session.resolve_renumber key kind ps k (d := .uplink) (by decide) seq
  · exact Session.resolve_renumber key kind ps k (d := .downlink) (by decide) seq

end HttpCapture
