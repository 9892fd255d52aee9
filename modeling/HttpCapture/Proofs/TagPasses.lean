import HttpCapture.Session.Tags
import Mathlib.Logic.Basic

/-! Tags in one walk. A tag other than the end of a loss depends on what came before the packet
alone. The passes that find these tags one kind after another remember different things of different
packets, so one walk that remembers all of it finds the same tags. -/

namespace HttpCapture

/-- What is remembered of each direction. -/
structure TagHistory where
  /-- Sequence numbers at which data was seen. -/
  data : Sides (List UInt32)
  /-- The window last sent with each acknowledgement, the latest first. -/
  windows : Sides (List ((UInt32 × TcpFlags) × UInt16))
  /-- Sequence numbers just before an acknowledged one, at which the other side may probe. -/
  probes : Sides (List UInt32)

namespace TagHistory

def empty : TagHistory := ⟨.both [], .both [], .both []⟩

/-- The tag of a packet that carries neither data nor control flags. -/
def ackTag (h : TagHistory) (d : Direction) (info : TcpInfo) : TcpTag :=
  if info.window = 0 then .zeroWindow
  else if (h.probes.get d.opposite).contains info.seq then .keepAlive
  else
    match (h.windows.get d).lookup (ackKey info) with
    | none => .ack
    | some w => if w = info.window then .ackDup else .windowUpdate

/-- The tag of a TCP packet and the history with it. -/
def step (h : TagHistory) (d : Direction) (info : TcpInfo) (hasData : Bool) : TcpTag × TagHistory :=
  let d := d.side
  if info.flags.rst then (.reset, h)
  else if info.flags.syn then (.establish, h)
  else if info.flags.fin then (.close, h)
  else if hasData then
    if (h.data.get d).contains info.seq then (.dataDup, h)
    else (.data, { h with data := h.data.modify d (info.seq :: ·) })
  else
    (h.ackTag d info,
      { h with
        windows := h.windows.modify d ((ackKey info, info.window) :: ·)
        probes := h.probes.modify d ((info.ack - 1) :: ·) })

end TagHistory

/-- Tags by history alone; packets of another transport have none. -/
def historyTags (h : TagHistory) : List SessionPacket → List (Option TcpTag)
  | [] => []
  | p :: ps =>
    match p.packet.tcp? with
    | none => none :: historyTags h ps
    | some info =>
      let (tag, h) := h.step p.direction info (!p.packet.payload.isEmpty)
      some tag :: historyTags h ps

namespace TagHistory

variable {h : TagHistory} {p : SessionPacket} {info : TcpInfo}

/-- What the second pass remembers. -/
def acks (h : TagHistory) : AckHistory := ⟨h.windows, h.probes⟩

theorem flags_of_not_control (hcontrol : info.flags.isControl = false) :
    info.flags.rst = false ∧ info.flags.syn = false ∧ info.flags.fin = false := by
  simp only [TcpFlags.isControl, Bool.or_eq_false_iff] at hcontrol
  exact ⟨hcontrol.2, hcontrol.1.1, hcontrol.1.2⟩

theorem ackTag_eq (h : TagHistory) (d : Direction) (info : TcpInfo) : h.ackTag d.side info =
    if info.window = 0 then .zeroWindow else (h.acks.step d info).1 := rfl

/-- A packet that is not bare is tagged in the first pass, and the second forgets nothing by it. -/
theorem step_of_not_bare (hbare : p.isBare info = false) :
    baseTag h.data p info =
        (some (h.step p.direction info p.hasData).1, (h.step p.direction info p.hasData).2.data) ∧
      (h.step p.direction info p.hasData).2.acks = h.acks := by
  unfold baseTag step
  dsimp only
  cases hrst : info.flags.rst
  · cases hsyn : info.flags.syn
    · cases hfin : info.flags.fin
      · have hdata : p.hasData = true := by
          simpa [SessionPacket.isBare, TcpFlags.isControl, hrst, hsyn, hfin] using hbare
        simp only [hdata, if_true]
        by_cases hseen : (h.data.get p.direction.side).contains info.seq = true
        · rw [if_pos hseen, if_pos hseen]
          exact ⟨rfl, rfl⟩
        · rw [if_neg hseen, if_neg hseen]
          exact ⟨rfl, rfl⟩
      · exact ⟨rfl, rfl⟩
    · exact ⟨rfl, rfl⟩
  · exact ⟨rfl, rfl⟩

/-- A bare packet passes the first pass by and is remembered in the second. -/
theorem step_of_bare (hbare : p.isBare info = true) :
    baseTag h.data p info = (none, h.data) ∧
      h.step p.direction info p.hasData = (h.ackTag p.direction.side info, { h with
        windows := (h.acks.step p.direction info).2.windows
        probes := (h.acks.step p.direction info).2.probes }) := by
  simp only [SessionPacket.isBare, Bool.and_eq_true, Bool.not_eq_true'] at hbare
  obtain ⟨hdata, hcontrol⟩ := hbare
  obtain ⟨hrst, hsyn, hfin⟩ := flags_of_not_control hcontrol
  unfold baseTag step
  simp only [hrst, hsyn, hfin, hdata]
  exact ⟨rfl, rfl⟩

end TagHistory

/-- From the same memory on, the walk finds what the passes find. -/
theorem passes_eq_historyTags (h : TagHistory) (ps : List SessionPacket) :
    detectZeroWindow (ps.zip (classifyAcks h.acks (ps.zip (baseTags h.data ps)))) =
      historyTags h ps := by
  induction ps generalizing h with
  | nil => rfl
  | cons p ps ih =>
    unfold historyTags baseTags
    cases hinfo : p.packet.tcp? with
    | none =>
      have hrest := ih h
      simp only [List.zip_cons_cons, classifyAcks, hinfo]
      simpa [detectZeroWindow, hinfo] using hrest
    | some info =>
      have hdata : (!p.packet.payload.isEmpty) = p.hasData := rfl
      dsimp only
      rw [hdata]
      cases hbare : p.isBare info with
      | false =>
        obtain ⟨hbase, hacks⟩ := TagHistory.step_of_not_bare (h := h) hbare
        have hrest := ih (h.step p.direction info p.hasData).2
        rw [hacks] at hrest
        simp only [hbase, List.zip_cons_cons, classifyAcks, hinfo, hbare]
        simpa [detectZeroWindow, hinfo, hbare] using hrest
      | true =>
        obtain ⟨hbase, hstep⟩ := TagHistory.step_of_bare (h := h) hbare
        have hrest := ih (h.step p.direction info p.hasData).2
        rw [hstep] at hrest ⊢
        simp only [hbase, List.zip_cons_cons, classifyAcks, hinfo, hbare, TagHistory.ackTag_eq]
        refine congrArg₂ List.cons ?_ hrest
        simp only [hinfo, Option.any_some, hbare, Bool.true_and, beq_iff_eq]
        exact (apply_ite some _ _ _).symm

/-- The passes together find what one walk finds. -/
theorem plainTags_eq_historyTags (ps : List SessionPacket) :
    plainTags ps = historyTags .empty ps :=
  passes_eq_historyTags .empty ps

end HttpCapture
