import HttpCapture.Session.Grouping
import HttpCapture.Proofs.SessionIndexes
import Mathlib.Data.List.Induction

/-! A session holds packets of one flow that belong to one connection: no packet but the first asks
for a connection with another number than the first one sent. -/

namespace HttpCapture

def Packet.isOf (key : SessionKey) (kind : TransportKind) (p : Packet) : Bool :=
  p.key = key ∧ p.kind = kind

def Session.isOf (key : SessionKey) (kind : TransportKind) (s : Session) : Bool :=
  s.key = key ∧ s.transport = kind

namespace SessionPacket

def upSeq? (p : SessionPacket) : Option UInt32 :=
  if p.direction = .uplink then p.packet.tcp?.map (·.seq) else none

/-- The sequence number of a packet that asks for a connection. -/
def opening? (p : SessionPacket) : Option UInt32 :=
  if p.direction = .uplink then (p.packet.tcp?.filter (·.flags.isOpening)).map (·.seq) else none

theorem upSeq?_of_opening? {p : SessionPacket} {seq : UInt32} (h : p.opening? = some seq) :
    p.upSeq? = some seq := by
  unfold opening? at h
  unfold upSeq?
  split at h
  · next hd =>
    obtain ⟨info, hinfo, rfl⟩ := Option.map_eq_some_iff.mp h
    rw [if_pos hd, (Option.filter_eq_some_iff.mp hinfo).1]
    rfl
  · exact absurd h (by simp)

/-- Whether a packet asks for another connection than the packets before it began. -/
def opensAfter (before : List SessionPacket) (p : SessionPacket) : Bool :=
  p.opening?.any fun seq => before.findSome? upSeq? != some seq

theorem opensAfter_of_udp {p : SessionPacket} (hp : p.packet.kind = .udp)
    (before : List SessionPacket) : p.opensAfter before = false := by
  have htcp : p.packet.tcp? = none := by
    unfold Packet.kind at hp
    unfold Packet.tcp?
    split
    · next hinfo => simp [hinfo] at hp
    · rfl
  simp [opensAfter, opening?, htcp]

end SessionPacket

/-- The packets of a session are of its flow, and belong to one connection. -/
structure Session.IsRun (s : Session) : Prop where
  keyed : ∀ p ∈ s.packets, p.packet.isOf s.key s.transport = true
  settled : ∀ p ∈ s.packets, p.direction = (settleDirection p.packet).1
  base : s.baseSeq.uplink = s.packets.findSome? (·.upSeq?)
  uncut : ∀ before p after, s.packets = before ++ p :: after → before ≠ [] →
    p.opensAfter before = false
  opening : ∀ p ∈ s.packets, ∀ seq ∈ p.opening?, s.baseSeq.uplink = some seq
  flagged : ∀ before p after, s.packets = before ++ p :: after →
    p.handshakeRetransmit = (p.opening?.isSome && !before.isEmpty)

theorem split_concat {α : Type} {l before after : List α} {p q : α}
    (h : l ++ [p] = before ++ q :: after) :
    (before = l ∧ q = p ∧ after = []) ∨ ∃ rest, l = before ++ q :: rest ∧ after = rest ++ [p] := by
  cases after using List.reverseRecOn with
  | nil =>
    obtain ⟨hl, hp⟩ := List.append_inj' h rfl
    exact .inl ⟨hl.symm, (List.cons.inj hp).1.symm, rfl⟩
  | append_singleton rest x =>
    rw [← List.cons_append, ← List.append_assoc] at h
    obtain ⟨hl, hp⟩ := List.append_inj' h rfl
    exact .inr ⟨rest, hl, by rw [(List.cons.inj hp).1]⟩

theorem settleDirection_ne_unknown (p : Packet) : (settleDirection p).1 ≠ .unknown := by
  unfold settleDirection
  split
  · unfold guessDirection guessDirection.byPayload
    split <;> (try split) <;> (try split) <;> simp
  · next hp => exact hp

namespace Session

theorem isOf_congr {s : Session} {p : Packet} (h : s.isOf p.key p.kind = true) (key : SessionKey)
    (kind : TransportKind) : s.isOf key kind = p.isOf key kind := by
  simp only [isOf, decide_eq_true_eq] at h
  simp [isOf, Packet.isOf, h.1, h.2]

theorem baseSeq_push (s : Session) {p : SessionPacket} (hp : p.direction ≠ .unknown) :
    (s.push p).baseSeq.uplink = (s.baseSeq.uplink <|> p.upSeq?) := by
  have hseq : p.seq? .uplink = p.upSeq? := by
    unfold SessionPacket.seq? SessionPacket.upSeq?
    cases hd : p.direction with
    | uplink => rfl
    | downlink => rfl
    | unknown => exact absurd hd hp
  have hpush := s.get_baseSeq_push p .uplink
  rw [hseq] at hpush
  rw [Option.orElse_eq_orElse, Option.orElse_eq_or]
  exact hpush

theorem isOf_push (s : Session) (p : SessionPacket) (key : SessionKey) (kind : TransportKind) :
    (s.push p).isOf key kind = s.isOf key kind := by
  unfold push
  cases p.packet.tcp? <;> rfl

end Session

namespace Grouping

variable {s : Session} {p : Packet} {d : Direction} {guessed : Bool}

/-- The packet as it is pushed into a session. -/
def entered (s : Session) (p : Packet) (d : Direction) : SessionPacket :=
  { SessionPacket.of p d with handshakeRetransmit := repeatsOpening s p d }

theorem enter_eq (p : Packet) (d : Direction) (guessed : Bool) (s : Session) :
    ∃ diagnostics, enter p d guessed s =
      { s.push (entered s p d) with diagnostics := diagnostics } := by
  unfold enter
  dsimp only
  split
  · exact ⟨_, rfl⟩
  · exact ⟨_, rfl⟩

@[simp] theorem packets_enter : (enter p d guessed s).packets = s.packets ++ [entered s p d] := by
  obtain ⟨diagnostics, he⟩ := enter_eq p d guessed s
  rw [he]
  exact s.packets_push _

@[simp] theorem isOf_enter (key : SessionKey) (kind : TransportKind) :
    (enter p d guessed s).isOf key kind = s.isOf key kind := by
  obtain ⟨diagnostics, he⟩ := enter_eq p d guessed s
  rw [he]
  exact s.isOf_push _ _ _

theorem key_enter : (enter p d guessed s).key = s.key ∧
    (enter p d guessed s).transport = s.transport := by
  have h : (enter p d guessed s).isOf s.key s.transport = s.isOf s.key s.transport :=
    isOf_enter _ _
  simpa [Session.isOf] using h

theorem baseSeq_enter (hd : d ≠ .unknown) : (enter p d guessed s).baseSeq.uplink =
    (s.baseSeq.uplink <|> (entered s p d).upSeq?) := by
  obtain ⟨diagnostics, he⟩ := enter_eq p d guessed s
  rw [he]
  exact s.baseSeq_push hd

theorem opening?_entered : (entered s p d).opening? =
    if d = .uplink then (p.tcp?.filter (·.flags.isOpening)).map (·.seq) else none := rfl

theorem continuesSession_eq (hbase : s.baseSeq.uplink = s.packets.findSome? (·.upSeq?)) :
    continuesSession s p d = !(entered s p d).opensAfter s.packets := by
  rw [SessionPacket.opensAfter, ← hbase, opening?_entered, continuesSession]
  cases p.tcp? with
  | none => simp
  | some info =>
    by_cases hd : d = .uplink <;> by_cases ho : info.flags.isOpening = true <;>
      simp [hd, ho, Option.filter, bne, beq_eq_decide]

theorem repeatsOpening_eq (hcontinues : s.packets = [] ∨ continuesSession s p d = true) :
    repeatsOpening s p d = ((entered s p d).opening?.isSome && !s.packets.isEmpty) := by
  rw [opening?_entered, repeatsOpening]
  rcases hcontinues with hempty | hcontinues
  · cases p.tcp? <;> simp [hempty]
  · rw [continuesSession] at hcontinues
    cases hp : p.tcp? with
    | none => simp
    | some info =>
      by_cases hd : d = .uplink <;> by_cases ho : info.flags.isOpening = true <;>
        simp_all [Option.filter]

end Grouping

theorem Session.isRun_new (key : SessionKey) (kind : TransportKind) : (new key kind).IsRun where
  keyed := by simp [new]
  settled := by simp [new]
  base := rfl
  uncut := by simp [new]
  opening := by simp [new]
  flagged := by simp [new]

theorem Session.IsRun.enter {s : Session} (h : s.IsRun) {p : Packet} (guessed : Bool)
    (hkey : s.isOf p.key p.kind = true)
    (hcontinues : s.packets = [] ∨ Grouping.continuesSession s p (settleDirection p).1 = true) :
    (Grouping.enter p (settleDirection p).1 guessed s).IsRun := by
  -- Only the base that the session had before the packet is compared with its sequence number.
  have hdirection := settleDirection_ne_unknown p
  generalize hd : (settleDirection p).1 = d at *
  have hbase : (Grouping.enter p d guessed s).baseSeq.uplink =
      (s.baseSeq.uplink <|> (Grouping.entered s p d).upSeq?) := Grouping.baseSeq_enter hdirection
  constructor
  case keyed =>
    intro q hq
    rw [Grouping.key_enter.1, Grouping.key_enter.2]
    rw [Grouping.packets_enter, List.mem_append, List.mem_singleton] at hq
    rcases hq with hq | rfl
    · exact h.keyed q hq
    · have hkey : s.key = p.key ∧ s.transport = p.kind := by simpa [Session.isOf] using hkey
      change p.isOf s.key s.transport = true
      rw [hkey.1, hkey.2]
      simp [Packet.isOf]
  case settled =>
    intro q hq
    rw [Grouping.packets_enter, List.mem_append, List.mem_singleton] at hq
    rcases hq with hq | rfl
    · exact h.settled q hq
    · exact hd.symm
  case base =>
    rw [hbase, Grouping.packets_enter, List.findSome?_append, h.base]
    simp
  case uncut =>
    intro before q after hsplit hne
    rw [Grouping.packets_enter] at hsplit
    rcases split_concat hsplit with ⟨rfl, rfl, -⟩ | ⟨rest, hrest, -⟩
    · have hopen := hcontinues.resolve_left hne
      rw [Grouping.continuesSession_eq h.base] at hopen
      simpa using hopen
    · exact h.uncut before q rest hrest hne
  case opening =>
    intro q hq seq hseq
    rw [hbase]
    rw [Grouping.packets_enter, List.mem_append, List.mem_singleton] at hq
    rcases hq with hq | rfl
    · rw [h.opening q hq seq hseq]
      rfl
    · rcases hcontinues with hempty | hopen
      · rw [h.base, hempty, SessionPacket.upSeq?_of_opening? hseq]
        rfl
      · rw [Grouping.continuesSession_eq h.base, SessionPacket.opensAfter, Option.mem_def.mp hseq,
          ← h.base] at hopen
        have hsame : s.baseSeq.uplink = some seq := by simpa using hopen
        rw [hsame]
        rfl
  case flagged =>
    intro before q after hsplit
    rw [Grouping.packets_enter] at hsplit
    rcases split_concat hsplit with ⟨rfl, rfl, -⟩ | ⟨rest, hrest, -⟩
    · exact Grouping.repeatsOpening_eq hcontinues
    · exact h.flagged before q rest hrest

end HttpCapture
