import HttpCapture.Proofs.SessionIndexes
import HttpCapture.Proofs.TagPasses

/-! The rules by which packets are tagged, and what is remembered to follow them. What was captured
before a packet decides its tag: which sequence numbers were sent, which numbers a probe may have,
and what was last sent with an acknowledgement. -/

namespace HttpCapture

namespace SessionPacket

/-- Carries data and no flag that opens, closes or resets. -/
def SendsData (p : SessionPacket) (info : TcpInfo) : Prop :=
  p.packet.tcp? = some info ∧ info.flags.isControl = false ∧ p.packet.payload ≠ []

/-- Carries neither data nor such a flag. -/
def OnlyAcks (p : SessionPacket) (info : TcpInfo) : Prop :=
  p.packet.tcp? = some info ∧ info.flags.isControl = false ∧ p.packet.payload = []

instance (p : SessionPacket) (info : TcpInfo) : Decidable (p.OnlyAcks info) :=
  inferInstanceAs (Decidable (_ ∧ _ ∧ _))

/-- The header of a packet that only acknowledges, with this key and from this side. -/
def ackLike? (p : SessionPacket) (d : Direction) (key : UInt32 × TcpFlags) : Option TcpInfo :=
  p.packet.tcp?.filter fun info => p.OnlyAcks info ∧ p.direction.sameSide d ∧ ackKey info = key

variable {p : SessionPacket} {info : TcpInfo}

theorem SendsData.exists_iff (h : p.SendsData info) {P : TcpInfo → Prop} :
    (∃ sent, p.SendsData sent ∧ P sent) ↔ P info := by
  constructor
  · rintro ⟨sent, hsent, hP⟩
    rwa [← Option.some.inj (hsent.1.symm.trans h.1)]
  · exact fun hP => ⟨info, h, hP⟩

theorem OnlyAcks.exists_iff (h : p.OnlyAcks info) {P : TcpInfo → Prop} :
    (∃ sent, p.OnlyAcks sent ∧ P sent) ↔ P info := by
  constructor
  · rintro ⟨sent, hsent, hP⟩
    rwa [← Option.some.inj (hsent.1.symm.trans h.1)]
  · exact fun hP => ⟨info, h, hP⟩

theorem OnlyAcks.ackLike?_eq (h : p.OnlyAcks info) (d : Direction) (key : UInt32 × TcpFlags) :
    p.ackLike? d key =
      if p.direction.sameSide d = true ∧ ackKey info = key then some info else none := by
  simp [ackLike?, h.1, h, Option.filter]

theorem ackLike?_eq_none (h : ∀ info, ¬p.OnlyAcks info) (d : Direction) (key : UInt32 × TcpFlags) :
    p.ackLike? d key = none := by
  simp [ackLike?, h]

end SessionPacket

section Rules

variable (before : List SessionPacket) (p : SessionPacket) (info : TcpInfo)

/-- Data was sent from the same side at the same number. -/
def RepeatsData : Prop :=
  ∃ q ∈ before, ∃ sent, q.SendsData sent ∧ q.direction.sameSide p.direction = true ∧
    sent.seq = info.seq

/-- The other side acknowledged what comes right behind the number. -/
def ProbesAck : Prop :=
  ∃ q ∈ before, ∃ sent, q.OnlyAcks sent ∧ q.direction.sameSide p.direction = false ∧
    sent.ack - 1 = info.seq

/-- The latest acknowledgement of the same side that differs at most in its window. -/
def latestAck? : Option TcpInfo :=
  (before.filterMap (·.ackLike? p.direction (ackKey info))).getLast?

/-- Acknowledges with an open window, and not as a probe. -/
def UsualAck : Prop := p.OnlyAcks info ∧ info.window ≠ 0 ∧ ¬ProbesAck before p info

/-- Which tag a packet has, by what was captured before it. -/
structure TagFollows (tag : TcpTag) : Prop where
  reset : tag = .reset ↔ info.flags.rst = true
  establish : tag = .establish ↔ info.flags.rst = false ∧ info.flags.syn = true
  close : tag = .close ↔
    info.flags.rst = false ∧ info.flags.syn = false ∧ info.flags.fin = true
  dataDup : tag = .dataDup ↔ p.SendsData info ∧ RepeatsData before p info
  data : tag = .data ∨ tag = .dataRecover ↔ p.SendsData info ∧ ¬RepeatsData before p info
  zeroWindow : tag = .zeroWindow ↔ p.OnlyAcks info ∧ info.window = 0
  keepAlive : tag = .keepAlive ↔ p.OnlyAcks info ∧ info.window ≠ 0 ∧ ProbesAck before p info
  ackDup : tag = .ackDup ↔ UsualAck before p info ∧
    ∃ last, latestAck? before p info = some last ∧ last.window = info.window
  windowUpdate : tag = .windowUpdate ↔ UsualAck before p info ∧
    ∃ last, latestAck? before p info = some last ∧ last.window ≠ info.window
  ack : tag = .ack ∨ tag = .ackRecover ↔
    UsualAck before p info ∧ latestAck? before p info = none

variable {before p info}

/-- Ending a loss takes nothing from the rule that a packet was tagged by. -/
theorem TagFollows.recover {tag ended : TcpTag} (h : TagFollows before p info tag)
    (hended : (tag = .data ∧ ended = .dataRecover) ∨ (tag = .ack ∧ ended = .ackRecover)) :
    TagFollows before p info ended := by
  rcases hended with ⟨rfl, rfl⟩ | ⟨rfl, rfl⟩
  all_goals
    exact ⟨by simpa using h.reset, by simpa using h.establish, by simpa using h.close,
      by simpa using h.dataDup, by simpa using h.data, by simpa using h.zeroWindow,
      by simpa using h.keepAlive, by simpa using h.ackDup, by simpa using h.windowUpdate,
      by simpa using h.ack⟩

end Rules

namespace TagHistory

/-- What is remembered after a packet. -/
def see (h : TagHistory) (p : SessionPacket) : TagHistory :=
  match p.packet.tcp? with
  | none => h
  | some info => (h.step p.direction info (!p.packet.payload.isEmpty)).2

/-- What is remembered of the packets captured so far. -/
structure Remembers (h : TagHistory) (before : List SessionPacket) : Prop where
  data : ∀ d x, x ∈ h.data.get d ↔ ∃ q ∈ before, ∃ sent, q.SendsData sent ∧
    q.direction.sameSide d = true ∧ sent.seq = x
  probes : ∀ d x, x ∈ h.probes.get d ↔ ∃ q ∈ before, ∃ sent, q.OnlyAcks sent ∧
    q.direction.sameSide d = true ∧ sent.ack - 1 = x
  windows : ∀ d key, (h.windows.get d).lookup key =
    ((before.filterMap (·.ackLike? d key)).getLast?).map (·.window)

theorem remembers_empty : empty.Remembers [] := by
  constructor
  · intro d x
    cases d <;> simp [empty, Sides.both, Sides.get]
  · intro d x
    cases d <;> simp [empty, Sides.both, Sides.get]
  · intro d key
    cases d <;> rfl

section Step

variable {h : TagHistory} {d : Direction} {info : TcpInfo}

theorem step_of_control (hcontrol : info.flags.isControl = true) (hasData : Bool) :
    (h.step d info hasData).2 = h := by
  unfold step
  cases hrst : info.flags.rst <;> cases hsyn : info.flags.syn <;>
    cases hfin : info.flags.fin <;> simp_all [TcpFlags.isControl]

theorem step_of_data (hcontrol : info.flags.isControl = false) :
    h.step d info true = if (h.data.get d).contains info.seq then (.dataDup, h)
      else (.data, { h with data := h.data.modify d (info.seq :: ·) }) := by
  obtain ⟨hrst, hsyn, hfin⟩ := flags_of_not_control hcontrol
  unfold step
  simp only [hrst, hsyn, hfin]
  cases d <;> rfl

theorem step_of_ack (hcontrol : info.flags.isControl = false) :
    h.step d info false = (h.ackTag d.side info, { h with
      windows := h.windows.modify d ((ackKey info, info.window) :: ·)
      probes := h.probes.modify d ((info.ack - 1) :: ·) }) := by
  obtain ⟨hrst, hsyn, hfin⟩ := flags_of_not_control hcontrol
  unfold step
  simp only [hrst, hsyn, hfin]
  cases d <;> rfl

end Step

variable {h : TagHistory} {p : SessionPacket}

/-- What a packet adds to the memory, by what it carries. -/
theorem see_cases (h : TagHistory) (p : SessionPacket) :
    (h.see p = h ∧ (∀ info, ¬p.SendsData info) ∧ ∀ info, ¬p.OnlyAcks info) ∨
    (∃ info, p.SendsData info ∧ (∀ info, ¬p.OnlyAcks info) ∧
      h.see p = if (h.data.get p.direction).contains info.seq then h
        else { h with data := h.data.modify p.direction (info.seq :: ·) }) ∨
    ∃ info, p.OnlyAcks info ∧ (∀ info, ¬p.SendsData info) ∧ h.see p = { h with
      windows := h.windows.modify p.direction ((ackKey info, info.window) :: ·)
      probes := h.probes.modify p.direction ((info.ack - 1) :: ·) } := by
  unfold see SessionPacket.SendsData SessionPacket.OnlyAcks
  cases hinfo : p.packet.tcp? with
  | none => simp
  | some info =>
    by_cases hcontrol : info.flags.isControl = true
    · exact .inl ⟨step_of_control hcontrol _, by simp [hcontrol], by simp [hcontrol]⟩
    · rw [Bool.not_eq_true] at hcontrol
      cases hpayload : p.packet.payload with
      | nil =>
        refine .inr (.inr ⟨info, ⟨rfl, hcontrol, rfl⟩, by simp, ?_⟩)
        exact congrArg Prod.snd (step_of_ack hcontrol)
      | cons byte payload =>
        refine .inr (.inl ⟨info, ⟨rfl, hcontrol, by simp⟩, by simp, ?_⟩)
        refine (congrArg Prod.snd (step_of_data hcontrol)).trans ?_
        split <;> rfl

theorem mem_data_see (h : TagHistory) (p : SessionPacket) (d : Direction) (x : UInt32) :
    x ∈ (h.see p).data.get d ↔ x ∈ h.data.get d ∨
      ∃ sent, p.SendsData sent ∧ p.direction.sameSide d = true ∧ sent.seq = x := by
  rcases h.see_cases p with ⟨hsee, hdata, -⟩ | ⟨info, hdata, -, hsee⟩ | ⟨info, -, hdata, hsee⟩
  · simp [hsee, hdata]
  · rw [hdata.exists_iff, hsee]
    split
    · next hseen =>
      refine (or_iff_left_of_imp ?_).symm
      rintro ⟨hside, rfl⟩
      rw [← Sides.get_of_sameSide h.data hside]
      exact List.contains_iff_mem.mp hseen
    · rw [Sides.get_modify]
      split
      · next hside => simp [hside, or_comm, eq_comm]
      · next hside => simp [hside]
  · simp [hsee, hdata]

theorem mem_probes_see (h : TagHistory) (p : SessionPacket) (d : Direction) (x : UInt32) :
    x ∈ (h.see p).probes.get d ↔ x ∈ h.probes.get d ∨
      ∃ sent, p.OnlyAcks sent ∧ p.direction.sameSide d = true ∧ sent.ack - 1 = x := by
  rcases h.see_cases p with ⟨hsee, -, hacks⟩ | ⟨info, -, hacks, hsee⟩ | ⟨info, hacks, -, hsee⟩
  · simp [hsee, hacks]
  · rw [hsee]
    split <;> simp [hacks]
  · rw [hacks.exists_iff, hsee, Sides.get_modify]
    split
    · next hside => simp [hside, or_comm, eq_comm]
    · next hside => simp [hside]

theorem lookup_windows_see (h : TagHistory) (p : SessionPacket) (d : Direction)
    (key : UInt32 × TcpFlags) : ((h.see p).windows.get d).lookup key =
      ((p.ackLike? d key).map (·.window)).or ((h.windows.get d).lookup key) := by
  rcases h.see_cases p with ⟨hsee, -, hacks⟩ | ⟨info, -, hacks, hsee⟩ | ⟨info, hacks, -, hsee⟩
  · rw [hsee, SessionPacket.ackLike?_eq_none hacks]
    rfl
  · rw [hsee, SessionPacket.ackLike?_eq_none hacks]
    split <;> rfl
  · rw [hacks.ackLike?_eq, hsee, Sides.get_modify]
    by_cases hside : p.direction.sameSide d = true
    · by_cases hkey : ackKey info = key
      · simp [hside, hkey]
      · have hne : (key == ackKey info) = false := by simpa using Ne.symm hkey
        simp [hside, hkey, hne, List.lookup_cons]
    · simp [hside]

theorem Remembers.see {before : List SessionPacket} (hr : h.Remembers before) (p : SessionPacket) :
    (h.see p).Remembers (before ++ [p]) := by
  constructor
  · intro d x
    rw [mem_data_see, hr.data]
    simp [or_and_right, exists_or]
  · intro d x
    rw [mem_probes_see, hr.probes]
    simp [or_and_right, exists_or]
  · intro d key
    rw [lookup_windows_see, hr.windows, List.filterMap_append]
    cases hlike : p.ackLike? d key with
    | none => simp [hlike]
    | some info => simp [hlike]

theorem remembers_foldl_see {before : List SessionPacket} (hr : h.Remembers before)
    (ps : List SessionPacket) : (ps.foldl see h).Remembers (before ++ ps) := by
  induction ps generalizing h before with
  | nil => simpa using hr
  | cons p ps ih => simpa using ih (hr.see p)

theorem sameSide_side (a d : Direction) : a.sameSide d.side = a.sameSide d := by
  cases d <;> rfl

theorem sameSide_opposite_side (a d : Direction) :
    a.sameSide d.side.opposite = !a.sameSide d := by
  cases a <;> cases d <;> rfl

section Follows

variable {before : List SessionPacket} {info : TcpInfo}

theorem Remembers.follows_ackTag (hr : h.Remembers before) (hacks : p.OnlyAcks info) :
    TagFollows before p info (h.ackTag p.direction.side info) := by
  obtain ⟨hrst, hsyn, hfin⟩ := flags_of_not_control hacks.2.1
  have hdata : ¬p.SendsData info := fun hdata => hdata.2.2 hacks.2.2
  have hprobe : (h.probes.get p.direction.side.opposite).contains info.seq = true ↔
      ProbesAck before p info := by
    rw [List.contains_iff_mem, hr.probes]
    simp only [sameSide_opposite_side, Bool.not_eq_true', ProbesAck]
  have hlatest : (h.windows.get p.direction.side).lookup (ackKey info) =
      (latestAck? before p info).map (·.window) := by
    rw [hr.windows, latestAck?]
    simp only [SessionPacket.ackLike?, sameSide_side]
  unfold ackTag
  rw [hlatest]
  split
  · next hwindow =>
    constructor <;> simp [hrst, hsyn, hfin, hdata, hacks, hwindow, UsualAck]
  · next hwindow =>
    split
    · next hseen =>
      have hprobes := hprobe.mp hseen
      constructor <;> simp [hrst, hsyn, hfin, hdata, hacks, hwindow, hprobes, UsualAck]
    · next hseen =>
      have hprobes : ¬ProbesAck before p info := fun hprobes => hseen (hprobe.mpr hprobes)
      have husual : UsualAck before p info := ⟨hacks, hwindow, hprobes⟩
      cases hlast : latestAck? before p info with
      | none =>
        constructor <;> simp [hrst, hsyn, hfin, hdata, hacks, hwindow, hprobes, husual, hlast]
      | some last =>
        by_cases hsame : last.window = info.window
        · constructor <;>
            simp [hrst, hsyn, hfin, hdata, hacks, hwindow, hprobes, husual, hlast, hsame]
        · constructor <;>
            simp [hrst, hsyn, hfin, hdata, hacks, hwindow, hprobes, husual, hlast, hsame]

theorem Remembers.follows (hr : h.Remembers before) (hinfo : p.packet.tcp? = some info) :
    TagFollows before p info (h.step p.direction info (!p.packet.payload.isEmpty)).1 := by
  by_cases hcontrol : info.flags.isControl = true
  · have hdata : ¬p.SendsData info := fun hdata => by simp [hdata.2.1] at hcontrol
    have hacks : ¬p.OnlyAcks info := fun hacks => by simp [hacks.2.1] at hcontrol
    unfold step
    cases hrst : info.flags.rst
    · cases hsyn : info.flags.syn
      · have hfin : info.flags.fin = true := by
          simpa [TcpFlags.isControl, hrst, hsyn] using hcontrol
        constructor <;> simp [hrst, hsyn, hfin, hdata, hacks, UsualAck]
      · constructor <;> simp [hrst, hsyn, hdata, hacks, UsualAck]
    · constructor <;> simp [hrst, hdata, hacks, UsualAck]
  · rw [Bool.not_eq_true] at hcontrol
    cases hpayload : p.packet.payload with
    | nil =>
      rw [List.isEmpty_nil, Bool.not_true, step_of_ack hcontrol]
      exact hr.follows_ackTag ⟨hinfo, hcontrol, hpayload⟩
    | cons byte payload =>
      obtain ⟨hrst, hsyn, hfin⟩ := flags_of_not_control hcontrol
      have hdata : p.SendsData info := ⟨hinfo, hcontrol, by simp [hpayload]⟩
      have hacks : ¬p.OnlyAcks info := fun hacks => hdata.2.2 hacks.2.2
      have hrepeat : (h.data.get p.direction).contains info.seq = true ↔
          RepeatsData before p info :=
        List.contains_iff_mem.trans (hr.data p.direction info.seq)
      rw [List.isEmpty_cons, Bool.not_false, step_of_data hcontrol]
      split
      · next hseen =>
        have hrepeats := hrepeat.mp hseen
        constructor <;> simp [hrst, hsyn, hfin, hdata, hacks, hrepeats, UsualAck]
      · next hseen =>
        have hrepeats : ¬RepeatsData before p info := fun hrepeats => hseen (hrepeat.mpr hrepeats)
        constructor <;> simp [hrst, hsyn, hfin, hdata, hacks, hrepeats, UsualAck]

end Follows

/-- The tag of a packet by what is remembered. -/
def tagOf (h : TagHistory) (p : SessionPacket) : Option TcpTag :=
  p.packet.tcp?.map fun info => (h.step p.direction info (!p.packet.payload.isEmpty)).1

end TagHistory

end HttpCapture
