import HttpCapture.Proofs.TagRules
import HttpCapture.Session.Copies
import Mathlib.Data.Set.Function
import Mathlib.Tactic.Push

/-! How losses end. A loss shows when a number is acknowledged twice or data is sent twice, and
the first packet of the other side that answers it ends it. What the last pass holds open is
just what was shown and not ended since, so that every end has a cause of its own and no loss is
left that could be ended. -/

namespace HttpCapture

theorem Direction.sameSide_of_opposite {a b c : Direction} (hb : a.sameSide b = false)
    (hc : a.sameSide c = false) : b.sameSide c = true := by
  revert hb hc
  cases a <;> cases b <;> cases c <;> decide

/-- What shows a loss: the other side asks again for data, or data is sent again. -/
inductive LossKind
  | asked
  | resent
  deriving DecidableEq

namespace LossKind

/-- The tag of packets that show a loss. -/
def dupTag : LossKind → TcpTag
  | .asked => .ackDup
  | .resent => .dataDup

/-- The tag of packets that end one. -/
def endTag : LossKind → TcpTag
  | .asked => .dataRecover
  | .resent => .ackRecover

/-- The tag that these packets have by history. -/
def plainTag : LossKind → TcpTag
  | .asked => .data
  | .resent => .ack

section Tags

variable (k k' : LossKind)

@[simp] theorem dupTag_inj : k.dupTag = k'.dupTag ↔ k = k' := by
  cases k <;> cases k' <;> decide

@[simp] theorem endTag_inj : k.endTag = k'.endTag ↔ k = k' := by
  cases k <;> cases k' <;> decide

@[simp] theorem plainTag_inj : k.plainTag = k'.plainTag ↔ k = k' := by
  cases k <;> cases k' <;> decide

@[simp] theorem dupTag_ne_endTag : k.dupTag ≠ k'.endTag := by
  cases k <;> cases k' <;> decide

@[simp] theorem dupTag_ne_plainTag : k.dupTag ≠ k'.plainTag := by
  cases k <;> cases k' <;> decide

@[simp] theorem endTag_ne_plainTag : k.endTag ≠ k'.plainTag := by
  cases k <;> cases k' <;> decide

end Tags

/-- The number at which a packet shows a loss. -/
def shownNumber (k : LossKind) (info : TcpInfo) (length : Nat) : UInt32 :=
  match k with
  | .asked => info.ack
  | .resent => seqAfter info.seq length

/-- The number at which a packet ends one. -/
def endedNumber (k : LossKind) (info : TcpInfo) : UInt32 :=
  match k with
  | .asked => info.seq
  | .resent => info.ack

def shown? (k : LossKind) (p : SessionPacket) : Option UInt32 :=
  if p.tag = some k.dupTag then p.packet.tcp?.map (k.shownNumber · p.packet.length) else none

def ended? (k : LossKind) (p : SessionPacket) : Option UInt32 :=
  if p.tag = some k.endTag then p.packet.tcp?.map k.endedNumber else none

/-- The numbers at which losses are open, for the sides that showed them. -/
def numbers (k : LossKind) (l : Losses) : Sides (List UInt32) :=
  match k with
  | .asked => l.acks
  | .resent => l.data

/-- The packet at `j` shows a loss that side `d` can end and does not end in front of `i`. -/
def LeavesOpen (k : LossKind) (ps : List SessionPacket) (j i : Nat) (d : Direction) (x : UInt32) :
    Prop :=
  ∃ q, j < i ∧ ps[j]? = some q ∧ q.direction.sameSide d = false ∧ k.shown? q = some x ∧
    ∀ m e, j < m → m < i → ps[m]? = some e → e.direction.sameSide d = true → k.ended? e ≠ some x

def IsOpen (k : LossKind) (ps : List SessionPacket) (i : Nat) (d : Direction) (x : UInt32) : Prop :=
  ∃ j, k.LeavesOpen ps j i d x

theorem isOpen_succ {ps : List SessionPacket} {i : Nat} {p : SessionPacket} (hp : ps[i]? = some p)
    (k : LossKind) (d : Direction) (x : UInt32) : k.IsOpen ps (i + 1) d x ↔
      (p.direction.sameSide d = false ∧ k.shown? p = some x) ∨
        k.IsOpen ps i d x ∧ ¬(p.direction.sameSide d = true ∧ k.ended? p = some x) := by
  constructor
  · rintro ⟨j, q, hj, hq, hside, hshown, hunended⟩
    by_cases hlast : j = i
    · subst hlast
      obtain rfl := Option.some.inj (hp.symm.trans hq)
      exact .inl ⟨hside, hshown⟩
    · refine .inr ⟨⟨j, q, by omega, hq, hside, hshown, fun m e hm hmi => ?_⟩, fun hended => ?_⟩
      · exact hunended m e hm (by omega)
      · exact hunended i p (by omega) (by omega) hp hended.1 hended.2
  · rintro (⟨hside, hshown⟩ | ⟨⟨j, q, hj, hq, hside, hshown, hunended⟩, hended⟩)
    · exact ⟨i, p, by omega, hp, hside, hshown, fun m e hm hmi => by omega⟩
    · refine ⟨j, q, by omega, hq, hside, hshown, fun m e hm hmi he => ?_⟩
      by_cases hlast : m = i
      · subst hlast
        obtain rfl := Option.some.inj (hp.symm.trans he)
        exact fun hside hend => hended ⟨hside, hend⟩
      · exact hunended m e hm (by omega) he

theorem tag_of_shown? {k : LossKind} {q : SessionPacket} {x : UInt32} (h : k.shown? q = some x) :
    q.tag = some k.dupTag := by
  unfold shown? at h
  split at h
  · assumption
  · cases h

theorem shown?_injective {k k' : LossKind} {q : SessionPacket} {x y : UInt32}
    (hx : k.shown? q = some x) (hy : k'.shown? q = some y) : k = k' ∧ x = y := by
  have htag := (tag_of_shown? hx).symm.trans (tag_of_shown? hy)
  obtain rfl := (dupTag_inj k k').mp (Option.some.inj htag)
  exact ⟨rfl, Option.some.inj (hx.symm.trans hy)⟩

/-- What a packet leaves open up to an end of it, it leaves open no longer. -/
theorem LeavesOpen.le_of_ended {k k' : LossKind} {ps : List SessionPacket} {j i i' : Nat}
    {p : SessionPacket} {d : Direction} {x x' : UInt32} (h : k.LeavesOpen ps j i p.direction x)
    (hp : ps[i]? = some p) (hended : k.ended? p = some x) (h' : k'.LeavesOpen ps j i' d x') :
    i' ≤ i := by
  obtain ⟨q, hj, hq, hside, hshown, -⟩ := h
  obtain ⟨q', -, hq', hside', hshown', hunended⟩ := h'
  obtain rfl := Option.some.inj (hq.symm.trans hq')
  obtain ⟨rfl, rfl⟩ := shown?_injective hshown hshown'
  by_contra hlt
  exact hunended i p hj (by omega) hp (Direction.sameSide_of_opposite hside hside') hended

end LossKind

namespace Sides

variable (s : Sides (List UInt32)) (d b : Direction) (n x : UInt32)

theorem mem_get_modify_insert : x ∈ (s.modify d.side (·.insert n)).get b.side.opposite ↔
    (d.sameSide b = false ∧ n = x) ∨ x ∈ s.get b.side.opposite := by
  have hside : d.side.sameSide b.side.opposite = !d.sameSide b := by
    cases d <;> cases b <;> rfl
  rw [Sides.get_modify, hside]
  cases d.sameSide b
  · simp [List.mem_insert_iff, eq_comm]
  · simp

theorem mem_get_modify_filter :
    x ∈ (s.modify d.side.opposite (·.filter (· != n))).get b.side.opposite ↔
      x ∈ s.get b.side.opposite ∧ ¬(d.sameSide b = true ∧ n = x) := by
  have hside : d.side.opposite.sameSide b.side.opposite = d.sameSide b := by
    cases d <;> cases b <;> rfl
  rw [Sides.get_modify, hside]
  cases d.sameSide b
  · simp
  · simp [@eq_comm _ n x]

end Sides

namespace Losses

variable {l : Losses} {tag : TcpTag}

/-- A packet shows a loss, ends one, or leaves all as it is. -/
theorem step_cases (l : Losses) (d : Direction) (info : TcpInfo) (length : Nat) (tag : TcpTag) :
    (∃ k : LossKind, tag = k.dupTag ∧ (l.step d info length tag).1 = k.dupTag ∧
      k.numbers (l.step d info length tag).2 =
        (k.numbers l).modify d.side (·.insert (k.shownNumber info length)) ∧
      ∀ k', k' ≠ k → k'.numbers (l.step d info length tag).2 = k'.numbers l) ∨
    (∃ k : LossKind, tag = k.plainTag ∧ (l.step d info length tag).1 = k.endTag ∧
      k.endedNumber info ∈ (k.numbers l).get d.side.opposite ∧
      k.numbers (l.step d info length tag).2 =
        (k.numbers l).modify d.side.opposite (·.filter (· != k.endedNumber info)) ∧
      ∀ k', k' ≠ k → k'.numbers (l.step d info length tag).2 = k'.numbers l) ∨
    l.step d info length tag = (tag, l) ∧ ∀ k : LossKind, tag ≠ k.dupTag ∧
      (tag = k.plainTag → k.endedNumber info ∉ (k.numbers l).get d.side.opposite) := by
  cases tag
  case ackDup =>
    refine .inl ⟨.asked, rfl, rfl, rfl, fun k' hne => ?_⟩
    cases k'
    · exact absurd rfl hne
    · rfl
  case dataDup =>
    refine .inl ⟨.resent, rfl, rfl, rfl, fun k' hne => ?_⟩
    cases k'
    · rfl
    · exact absurd rfl hne
  case data =>
    by_cases hopen : (l.acks.get d.side.opposite).contains info.seq = true
    · have hstep : l.step d info length .data = (.dataRecover, { l with
          acks := l.acks.modify d.side.opposite (·.filter (· != info.seq)) }) := if_pos hopen
      rw [hstep]
      refine .inr (.inl ⟨.asked, rfl, rfl, List.contains_iff_mem.mp hopen, rfl, fun k' hne => ?_⟩)
      cases k'
      · exact absurd rfl hne
      · rfl
    · refine .inr (.inr ⟨if_neg hopen, fun k => ?_⟩)
      cases k
      · exact ⟨by decide, fun _ hmem => hopen (List.contains_iff_mem.mpr hmem)⟩
      · exact ⟨by decide, by simp [LossKind.plainTag]⟩
  case ack =>
    by_cases hopen : (l.data.get d.side.opposite).contains info.ack = true
    · have hstep : l.step d info length .ack = (.ackRecover, { l with
          data := l.data.modify d.side.opposite (·.filter (· != info.ack)) }) := if_pos hopen
      rw [hstep]
      refine .inr (.inl ⟨.resent, rfl, rfl, List.contains_iff_mem.mp hopen, rfl, fun k' hne => ?_⟩)
      cases k'
      · rfl
      · exact absurd rfl hne
    · refine .inr (.inr ⟨if_neg hopen, fun k => ?_⟩)
      cases k
      · exact ⟨by decide, by simp [LossKind.plainTag]⟩
      · exact ⟨by decide, fun _ hmem => hopen (List.contains_iff_mem.mpr hmem)⟩
  all_goals
    exact .inr (.inr ⟨rfl, fun k => by cases k <;> simp [LossKind.dupTag, LossKind.plainTag]⟩)

theorem mem_numbers_step (l : Losses) (d : Direction) (info : TcpInfo) (length : Nat)
    (hnew : ∀ k : LossKind, tag ≠ k.endTag) (k : LossKind) (b : Direction) (x : UInt32) :
    x ∈ (k.numbers (l.step d info length tag).2).get b.side.opposite ↔
      (d.sameSide b = false ∧ (l.step d info length tag).1 = k.dupTag ∧
        k.shownNumber info length = x) ∨
      x ∈ (k.numbers l).get b.side.opposite ∧ ¬(d.sameSide b = true ∧
        (l.step d info length tag).1 = k.endTag ∧ k.endedNumber info = x) := by
  rcases l.step_cases d info length tag with ⟨k', -, htag, hnumbers, hothers⟩ |
    ⟨k', -, htag, -, hnumbers, hothers⟩ | ⟨hstep, hplain⟩
  · rw [htag]
    obtain rfl | hk := eq_or_ne k k'
    · simp [hnumbers, Sides.mem_get_modify_insert]
    · simp [hothers k hk, hk.symm]
  · rw [htag]
    obtain rfl | hk := eq_or_ne k k'
    · simp [hnumbers, Sides.mem_get_modify_filter, (LossKind.dupTag_ne_endTag _ _).symm]
    · simp [hothers k hk, hk.symm, (LossKind.dupTag_ne_endTag _ _).symm]
  · simp [hstep, (hplain k).1, hnew k]

theorem mem_of_endTag {k : LossKind} {p : SessionPacket} {tag? : Option TcpTag}
    (hnew : tag? ≠ some k.endTag) (h : l.tagOf (p, tag?) = some k.endTag) :
    ∃ info, p.packet.tcp? = some info ∧
      k.endedNumber info ∈ (k.numbers l).get p.direction.side.opposite := by
  unfold tagOf at h
  cases hinfo : p.packet.tcp? with
  | none => simp [hinfo, hnew] at h
  | some info =>
    cases tag? with
    | none => simp [hinfo] at h
    | some tag =>
      simp only [hinfo, Option.some.injEq] at h
      rcases l.step_cases p.direction info p.packet.length tag with ⟨k', -, hdup, -⟩ |
        ⟨k', -, hend, hmem, -⟩ | ⟨hstep, -⟩
      · exact absurd (hdup.symm.trans h) (LossKind.dupTag_ne_endTag k' k)
      · obtain rfl := (LossKind.endTag_inj k' k).mp (hend.symm.trans h)
        exact ⟨info, rfl, hmem⟩
      · rw [hstep] at h
        exact absurd (congrArg some h) hnew

theorem step_plainTag (l : Losses) (d : Direction) (info : TcpInfo) (length : Nat) (k : LossKind) :
    (l.step d info length k.plainTag).1 = k.plainTag ↔
      k.endedNumber info ∉ (k.numbers l).get d.side.opposite := by
  rcases l.step_cases d info length k.plainTag with ⟨k', hdup, -⟩ | ⟨k', hplain, hend, hmem, -⟩ |
    ⟨hstep, hplain⟩
  · exact absurd hdup.symm (LossKind.dupTag_ne_plainTag k' k)
  · obtain rfl := (LossKind.plainTag_inj k k').mp hplain
    simp [hend, hmem]
  · simp [hstep, (hplain k).2 rfl]

/-- What is open at a place is what the packets in front of it showed and did not end. -/
def Mirrors (l : Losses) (ps : List SessionPacket) (i : Nat) : Prop :=
  ∀ (k : LossKind) d x, x ∈ (k.numbers l).get d.side.opposite ↔ k.IsOpen ps i d x

theorem mirrors_empty (ps : List SessionPacket) : empty.Mirrors ps 0 := by
  intro k d x
  cases k <;> cases d <;>
    simp [empty, LossKind.numbers, LossKind.IsOpen, LossKind.LeavesOpen, Sides.both, Sides.get,
      Direction.side, Direction.opposite]

theorem Mirrors.see {ps : List SessionPacket} {i : Nat} (h : l.Mirrors ps i) {p : SessionPacket}
    {tag? : Option TcpTag} (hp : ps[i]? = some { p with tag := l.tagOf (p, tag?) })
    (hnew : ∀ k : LossKind, tag? ≠ some k.endTag) : (l.see (p, tag?)).Mirrors ps (i + 1) := by
  intro k d x
  rw [LossKind.isOpen_succ hp, ← h k d x]
  unfold Losses.see Losses.tagOf LossKind.shown? LossKind.ended?
  cases hinfo : p.packet.tcp? with
  | none => simp
  | some info =>
    cases tag? with
    | none => simp
    | some tag =>
      simpa using l.mem_numbers_step p.direction info p.packet.length
        (fun k heq => hnew k (congrArg some heq)) k d x

end Losses

namespace TagHistory

theorem ackTag_ne_endTag (h : TagHistory) (d : Direction) (info : TcpInfo) (k : LossKind) :
    h.ackTag d info ≠ k.endTag := by
  unfold ackTag
  repeat' split
  all_goals cases k <;> decide

theorem step_ne_endTag (h : TagHistory) (d : Direction) (info : TcpInfo) (hasData : Bool)
    (k : LossKind) : (h.step d info hasData).1 ≠ k.endTag := by
  unfold step
  dsimp only
  repeat' split
  all_goals first
    | exact h.ackTag_ne_endTag d.side info k
    | cases k <;> simp [LossKind.endTag]

theorem tagOf_ne_endTag (h : TagHistory) (p : SessionPacket) (k : LossKind) :
    h.tagOf p ≠ some k.endTag := by
  unfold tagOf
  cases p.packet.tcp? with
  | none => simp
  | some info => exact fun heq => h.step_ne_endTag _ info _ k (Option.some.inj heq)

end TagHistory

theorem lossesAt_succ {ps : List SessionPacket} {i : Nat} {p : SessionPacket}
    (hp : ps[i]? = some p) :
    lossesAt ps (i + 1) = (lossesAt ps i).see (p, (historyAt ps i).tagOf p) := by
  rw [lossesAt, List.take_add_one, List.foldl_append, getElem?_taggedByHistory, hp]
  rfl

theorem lossesAt_mirrors {s : Session} (hs : s.isTcp = true) {i : Nat} (hi : i ≤ s.packets.length) :
    (lossesAt s.packets i).Mirrors s.annotate.packets i := by
  induction i with
  | zero => exact Losses.mirrors_empty _
  | succ i ih =>
    have hp := List.getElem?_eq_getElem (Nat.lt_of_succ_le hi)
    rw [lossesAt_succ hp]
    refine (ih (Nat.le_of_succ_le hi)).see ?_ (TagHistory.tagOf_ne_endTag _ _)
    rw [getElem?_annotate hs, hp]
    rfl

section Episodes

variable {s : Session} {i : Nat} {p : SessionPacket} {k : LossKind}

theorem isOpen_of_endTag (hs : s.isTcp = true) (hp : s.annotate.packets[i]? = some p)
    (htag : p.tag = some k.endTag) :
    ∃ x, k.ended? p = some x ∧ k.IsOpen s.annotate.packets i p.direction x := by
  obtain ⟨q, hq, rfl⟩ := Option.map_eq_some_iff.mp ((getElem?_annotate hs i).symm.trans hp)
  have hmirrors := lossesAt_mirrors hs (List.getElem?_eq_some_iff.mp hq).1.le
  obtain ⟨info, hinfo, hmem⟩ := Losses.mem_of_endTag (TagHistory.tagOf_ne_endTag _ q k) htag
  exact ⟨k.endedNumber info, (if_pos htag).trans (congrArg _ hinfo), (hmirrors k _ _).mp hmem⟩

theorem exists_cause (hs : s.isTcp = true) (i : Nat) :
    ∃ j, ∀ (k : LossKind) p, s.annotate.packets[i]? = some p → p.tag = some k.endTag →
      ∃ x, k.ended? p = some x ∧ k.LeavesOpen s.annotate.packets j i p.direction x := by
  by_cases hends : ∃ (k : LossKind) (p : SessionPacket),
      s.annotate.packets[i]? = some p ∧ p.tag = some k.endTag
  · obtain ⟨k, p, hp, htag⟩ := hends
    obtain ⟨x, hx, j, hopen⟩ := isOpen_of_endTag hs hp htag
    refine ⟨j, fun k' p' hp' htag' => ?_⟩
    obtain rfl := Option.some.inj (hp.symm.trans hp')
    obtain rfl := (LossKind.endTag_inj k k').mp (Option.some.inj (htag.symm.trans htag'))
    exact ⟨x, hx, hopen⟩
  · exact ⟨0, fun k p hp htag => absurd ⟨k, p, hp, htag⟩ hends⟩

theorem plainTag_iff_not_isOpen (hs : s.isTcp = true) (hp : s.annotate.packets[i]? = some p)
    {info : TcpInfo} (hinfo : p.packet.tcp? = some info)
    (hplain : (historyTags .empty s.packets)[i]? = some (some k.plainTag)) :
    p.tag = some k.plainTag ↔
      ¬k.IsOpen s.annotate.packets i p.direction (k.endedNumber info) := by
  obtain ⟨q, hq, rfl⟩ := Option.map_eq_some_iff.mp ((getElem?_annotate hs i).symm.trans hp)
  have hmirrors := lossesAt_mirrors hs (List.getElem?_eq_some_iff.mp hq).1.le
  have hbefore : (historyAt s.packets i).tagOf q = some k.plainTag := by
    rw [getElem?_historyTags, hq] at hplain
    exact Option.some.inj hplain
  rw [← hmirrors, ← Losses.step_plainTag _ _ _ q.packet.length]
  simp only at hinfo
  simp [Losses.tagOf, hbefore, hinfo]

end Episodes

/-- A map gives each packet that ends a loss an earlier one of the other side that showed it,
and no two of them the same. Data and acknowledgements that could end a loss remain as they are
just if none is left. -/
theorem losses_end_once {s : Session} (hs : s.isTcp = true) :
    let a := s.annotate.packets
    (∃ cause : Nat → Nat,
      (∀ (k : LossKind) (i : Nat) p, a[i]? = some p → p.tag = some k.endTag → ∃ q x, cause i < i ∧
        a[cause i]? = some q ∧ q.direction.sameSide p.direction = false ∧
        k.ended? p = some x ∧ k.shown? q = some x) ∧
      Set.InjOn cause
        {i | ∃ (k : LossKind) (p : SessionPacket), a[i]? = some p ∧ p.tag = some k.endTag}) ∧
    ∀ (k : LossKind) (i : Nat) p info, a[i]? = some p → p.packet.tcp? = some info →
      (historyTags .empty s.packets)[i]? = some (some k.plainTag) →
      (p.tag = some k.plainTag ↔
        ∀ (j : Nat) q, j < i → a[j]? = some q → q.direction.sameSide p.direction = false →
          k.shown? q = some (k.endedNumber info) →
          ∃ (m : Nat) (e : SessionPacket), j < m ∧ m < i ∧ a[m]? = some e ∧
            e.direction.sameSide p.direction = true ∧ k.ended? e = some (k.endedNumber info)) := by
  intro a
  choose cause hcause using exists_cause hs
  refine ⟨⟨cause, fun k i p hp htag => ?_, ?_⟩, fun k i p info hp hinfo hplain => ?_⟩
  · obtain ⟨x, hx, q, hj, hq, hside, hshown, -⟩ := hcause i k p hp htag
    exact ⟨q, x, hj, hq, hside, hx, hshown⟩
  · rintro i ⟨k, p, hp, htag⟩ i' ⟨k', p', hp', htag'⟩ heq
    obtain ⟨x, hx, hopen⟩ := hcause i k p hp htag
    obtain ⟨x', hx', hopen'⟩ := hcause i' k' p' hp' htag'
    rw [← heq] at hopen'
    exact le_antisymm (hopen'.le_of_ended hp' hx' hopen) (hopen.le_of_ended hp hx hopen')
  · rw [plainTag_iff_not_isOpen hs hp hinfo hplain]
    simp only [LossKind.IsOpen, LossKind.LeavesOpen]
    push Not
    rfl

/-- A number is asked for again and then sent. It is sent again and acknowledged, so that another
acknowledgement of it, with other flags, ends nothing. -/
theorem losses_end_once_of_two_episodes :
    let ack := SessionPacket.sample .downlink 900 102 []
    let s := Session.ofPackets .sample .tcp
      [.sample .downlink 900 100 [], .sample .downlink 900 100 [],
        .sample .uplink 100 900 [1, 2], .sample .uplink 100 900 [1, 2], ack,
        { ack with packet.transport := .tcp ⟨900, 102, .ofBits 24, 65535⟩ }]
    s.isTcp = true ∧ s.annotate.packets.map (·.tag) = [some .ack, some .ackDup, some .dataRecover,
      some .dataDup, some .ackRecover, some .ack] ∧
    (∃ cause : Nat → Nat, cause 2 < 2 ∧ cause 4 < 4 ∧ cause 2 ≠ cause 4) ∧
    ∃ (m : Nat) (e : SessionPacket), 3 < m ∧ m < 5 ∧ s.annotate.packets[m]? = some e ∧
      LossKind.resent.ended? e = some 102 := by
  intro ack s
  have htags : s.annotate.packets.map (·.tag) = [some .ack, some .ackDup, some .dataRecover,
      some .dataDup, some .ackRecover, some .ack] := by decide +kernel
  have htagged (i : Nat) (tag : TcpTag)
      (h : (s.annotate.packets.map (·.tag))[i]? = some (some tag)) :
      ∃ p, s.annotate.packets[i]? = some p ∧ p.tag = some tag := by
    simpa using h
  obtain ⟨⟨cause, hcause, hinj⟩, hstays⟩ := losses_end_once (s := s) rfl
  obtain ⟨p, hp, hdata⟩ := htagged 2 .dataRecover (htags ▸ rfl)
  obtain ⟨q, hq, hack⟩ := htagged 4 .ackRecover (htags ▸ rfl)
  obtain ⟨-, -, hbefore, -⟩ := hcause .asked 2 p hp hdata
  obtain ⟨-, -, hbefore', -⟩ := hcause .resent 4 q hq hack
  refine ⟨rfl, htags, ⟨cause, hbefore, hbefore', fun heq => ?_⟩, ?_⟩
  · exact absurd (hinj ⟨.asked, p, hp, hdata⟩ ⟨.resent, q, hq, hack⟩ heq) (by decide)
  · have hlast : s.annotate.packets[5]? = some { ack with
        packet.transport := .tcp ⟨900, 102, .ofBits 24, 65535⟩, tag := some .ack } := by
      decide +kernel
    have hshows : s.annotate.packets[3]? = some
        { SessionPacket.sample .uplink 100 900 [1, 2] with tag := some .dataDup } := by
      decide +kernel
    obtain ⟨m, e, hlower, hupper, he, -, hended⟩ := (hstays .resent 5 _ _ hlast rfl
      (by decide +kernel)).mp rfl 3 _ (by decide) hshows rfl (by decide)
    exact ⟨m, e, hlower, hupper, he, hended⟩

end HttpCapture
