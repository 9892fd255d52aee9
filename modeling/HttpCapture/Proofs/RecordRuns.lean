import HttpCapture.Exchange.Encrypted
import HttpCapture.Proofs.PairingOrder
import HttpCapture.Proofs.StreamCoverage
import Mathlib.Algebra.GroupWithZero.Nat
import Mathlib.Data.List.Chain
import Mathlib.Data.List.Forall2

/-! Runs of application data in an encrypted session. Each packet that carries application
data belongs to one run, and a run ends only where data flows the other way or a record of
another kind is seen. -/

namespace HttpCapture

namespace SessionPacket

def CarriesData (p : SessionPacket) : Prop := p.packet.tlsRecord = some .applicationData

def CarriesOther (p : SessionPacket) : Prop :=
  ∃ kind ∈ p.packet.tlsRecord, kind ≠ .applicationData

/-- Whether a packet ends a run of the given direction. -/
def Breaks (p : SessionPacket) (d : Direction) : Prop :=
  p.CarriesOther ∨ p.CarriesData ∧ p.direction ≠ d

theorem CarriesData.not_carriesOther {p : SessionPacket} (h : p.CarriesData) : ¬p.CarriesOther := by
  rintro ⟨kind, hkind, hne⟩
  exact hne (Option.some.inj (hkind.symm.trans h))

theorem not_carriesOther_iff {p : SessionPacket} :
    ¬p.CarriesOther ↔ p.CarriesData ∨ p.packet.tlsRecord = none := by
  unfold CarriesOther CarriesData
  cases p.packet.tlsRecord <;> simp

theorem not_breaks {p : SessionPacket} {d : Direction} (hrecord : ¬p.CarriesOther)
    (hdirection : d = p.direction) : ¬p.Breaks d := by
  rintro (hother | ⟨-, hne⟩)
  · exact hrecord hother
  · exact hne hdirection.symm

end SessionPacket

namespace RecordRuns

/-- What adding a packet does to the runs. -/
inductive Adds (i : Nat) (p : SessionPacket) : RecordRuns → RecordRuns → Prop
  | extended {run : RecordRun} {runs : List RecordRun} (hrecord : ¬p.CarriesOther)
      (hdirection : run.direction = p.direction) :
      Adds i p ⟨run :: runs, true⟩ ⟨{ run with members := (i, p) :: run.members } :: runs, true⟩
  | opened {r : RecordRuns} (hdata : p.CarriesData)
      (hother : r.isOpen = true → ∀ run ∈ r.runs.head?, run.direction ≠ p.direction) :
      Adds i p r ⟨⟨p.direction, [(i, p)]⟩ :: r.runs, true⟩
  | ignored {r : RecordRuns} (hrecord : p.packet.tlsRecord = none) : Adds i p r r
  | closed {r : RecordRuns} (hother : p.CarriesOther) : Adds i p r { r with isOpen := false }

theorem extend?_eq_some {r t : RecordRuns} {i : Nat} {p : SessionPacket}
    (h : r.extend? i p = some t) : ∃ run runs, r = ⟨run :: runs, true⟩ ∧
      run.direction = p.direction ∧
      t = ⟨{ run with members := (i, p) :: run.members } :: runs, true⟩ := by
  obtain ⟨_ | ⟨run, runs⟩, isOpen⟩ := r
  · cases h
  · unfold extend? at h
    split at h
    · cases h
    · next hruns =>
      obtain ⟨rfl, rfl⟩ := List.cons.inj hruns
      split at h
      · next hopen =>
        obtain ⟨rfl, hdirection⟩ := hopen
        exact ⟨run, runs, rfl, hdirection, (Option.some.inj h).symm⟩
      · cases h

theorem extend?_eq_none {r : RecordRuns} {i : Nat} {p : SessionPacket} (h : r.extend? i p = none)
    (hopen : r.isOpen = true) : ∀ run ∈ r.runs.head?, run.direction ≠ p.direction := by
  intro run hrun hdirection
  obtain ⟨runs, hruns⟩ := List.head?_eq_some_iff.mp hrun
  simp [extend?, hruns, hopen, hdirection] at h

theorem adds_add (r : RecordRuns) (i : Nat) (p : SessionPacket) : Adds i p r (r.add i p) := by
  unfold add
  split
  · next hdata =>
    cases hextend : r.extend? i p with
    | some t =>
      obtain ⟨run, runs, rfl, hdirection, rfl⟩ := extend?_eq_some hextend
      exact .extended (SessionPacket.CarriesData.not_carriesOther hdata) hdirection
    | none => exact .opened hdata (extend?_eq_none hextend)
  · next hnone =>
    cases hextend : r.extend? i p with
    | some t =>
      obtain ⟨run, runs, rfl, hdirection, rfl⟩ := extend?_eq_some hextend
      exact .extended (by simp [SessionPacket.CarriesOther, hnone]) hdirection
    | none => exact .ignored hnone
  · next kind hne hkind => exact .closed ⟨kind, hkind, hne⟩

def members (r : RecordRuns) : List (Nat × SessionPacket) := r.runs.flatMap (·.members)

end RecordRuns

namespace RecordRun

/-- A run of the given packets that none of them breaks. -/
structure Within (run : RecordRun) (ms : List (Nat × SessionPacket)) : Prop where
  member : ∀ m ∈ run.members, m ∈ ms ∧ m.2.direction = run.direction ∧ ¬m.2.CarriesOther
  unbroken : ∀ a ∈ run.members, ∀ b ∈ run.members, ∀ m ∈ ms, a.1 < m.1 → m.1 < b.1 →
    ¬m.2.Breaks run.direction

/-- No packet after the run breaks it. -/
def GoesOn (run : RecordRun) (ms : List (Nat × SessionPacket)) : Prop :=
  ∀ a ∈ run.members, ∀ m ∈ ms, a.1 < m.1 → ¬m.2.Breaks run.direction

/-- A record of another kind comes after `a` and before `b`. -/
def Apart (ms : List (Nat × SessionPacket)) (a b : RecordRun) : Prop :=
  ∃ m ∈ ms, m.2.CarriesOther ∧ (∀ x ∈ a.members, x.1 < m.1) ∧ ∀ y ∈ b.members, m.1 < y.1

/-- A record of another kind comes after the run. -/
def Ended (run : RecordRun) (ms : List (Nat × SessionPacket)) : Prop :=
  ∃ m ∈ ms, m.2.CarriesOther ∧ ∀ a ∈ run.members, a.1 < m.1

variable {run : RecordRun} {ms : List (Nat × SessionPacket)} {i : Nat} {p : SessionPacket}

theorem Apart.append {a b : RecordRun} (h : Apart ms a b) (ns : List (Nat × SessionPacket)) :
    Apart (ms ++ ns) a b := by
  obtain ⟨m, hm, happart⟩ := h
  exact ⟨m, List.mem_append_left _ hm, happart⟩

theorem Ended.append (h : run.Ended ms) (ns : List (Nat × SessionPacket)) :
    run.Ended (ms ++ ns) := by
  obtain ⟨m, hm, hended⟩ := h
  exact ⟨m, List.mem_append_left _ hm, hended⟩

theorem GoesOn.append (h : run.GoesOn ms) (hbreak : ¬p.Breaks run.direction) :
    run.GoesOn (ms ++ [(i, p)]) := by
  intro a ha m hm ham
  rcases List.mem_append.mp hm with hm | hm
  · exact h a ha m hm ham
  · obtain rfl := List.mem_singleton.mp hm
    exact hbreak

theorem Within.append (h : run.Within ms) (hlast : ∀ m ∈ ms, m.1 < i) :
    run.Within (ms ++ [(i, p)]) where
  member m hm := (h.member m hm).imp_left (List.mem_append_left _)
  unbroken a ha b hb m hm ham hmb := by
    rcases List.mem_append.mp hm with hm | hm
    · exact h.unbroken a ha b hb m hm ham hmb
    · obtain rfl := List.mem_singleton.mp hm
      exact absurd hmb (Nat.lt_asymm (hlast b (h.member b hb).1))

theorem Apart.extend {a : RecordRun} (h : Apart ms a run) (hlast : ∀ m ∈ ms, m.1 < i) :
    Apart (ms ++ [(i, p)]) a { run with members := (i, p) :: run.members } := by
  obtain ⟨m, hm, hother, hafter, hbefore⟩ := h
  refine ⟨m, List.mem_append_left _ hm, hother, hafter, fun y hy => ?_⟩
  rcases List.mem_cons.mp hy with rfl | hy
  · exact hlast m hm
  · exact hbefore y hy

theorem GoesOn.extend (h : run.GoesOn ms) (hlast : ∀ m ∈ ms, m.1 < i)
    (hbreak : ¬p.Breaks run.direction) :
    GoesOn { run with members := (i, p) :: run.members } (ms ++ [(i, p)]) := by
  intro a ha m hm ham
  rcases List.mem_append.mp hm with hm | hm
  · rcases List.mem_cons.mp ha with rfl | ha
    · exact absurd ham (Nat.lt_asymm (hlast m hm))
    · exact h a ha m hm ham
  · obtain rfl := List.mem_singleton.mp hm
    exact hbreak

theorem Within.extend (h : run.Within ms) (hgoesOn : run.GoesOn ms) (hlast : ∀ m ∈ ms, m.1 < i)
    (hrecord : ¬p.CarriesOther) (hdirection : run.direction = p.direction) :
    Within { run with members := (i, p) :: run.members } (ms ++ [(i, p)]) where
  member m hm := by
    rcases List.mem_cons.mp hm with rfl | hm
    · exact ⟨List.mem_append_right _ List.mem_cons_self, hdirection.symm, hrecord⟩
    · exact (h.member m hm).imp_left (List.mem_append_left _)
  unbroken a ha _ _ m hm ham _ :=
    hgoesOn.extend hlast (SessionPacket.not_breaks hrecord hdirection) a ha m hm ham

end RecordRun

namespace RecordRuns

/-- The runs that the given packets are split into. -/
structure Splits (r : RecordRuns) (ms : List (Nat × SessionPacket)) : Prop where
  within : ∀ run ∈ r.runs, run.Within ms
  assigned : ∀ m ∈ ms, m.2.CarriesData → m ∈ r.members
  descending : r.members.Pairwise fun a b => b.1 < a.1
  goesOn : r.isOpen = true → ∀ run ∈ r.runs.head?, run.GoesOn ms
  ended : r.isOpen = false → ∀ run ∈ r.runs.head?, run.Ended ms
  separated : r.runs.IsChain fun b a => a.direction = b.direction → RecordRun.Apart ms a b

variable {r : RecordRuns} {ms : List (Nat × SessionPacket)} {i : Nat} {p : SessionPacket}

theorem Splits.mem_of_mem_members (h : r.Splits ms) {m : Nat × SessionPacket}
    (hm : m ∈ r.members) : m ∈ ms := by
  obtain ⟨run, hrun, hm⟩ := List.mem_flatMap.mp hm
  exact ((h.within run hrun).member m hm).1

theorem splits_empty : empty.Splits [] where
  within run hrun := absurd hrun List.not_mem_nil
  assigned m hm := absurd hm List.not_mem_nil
  descending := .nil
  goesOn hopen := by cases hopen
  ended _ run hrun := by cases hrun
  separated := .nil

/-- A run may begin with no packet yet, unless the latest goes on in the same direction. -/
theorem Splits.begin (h : r.Splits ms) {d : Direction}
    (hother : r.isOpen = true → ∀ run ∈ r.runs.head?, run.direction ≠ d) :
    Splits ⟨⟨d, []⟩ :: r.runs, true⟩ ms where
  within run hrun := by
    rcases List.mem_cons.mp hrun with rfl | hrun
    · exact ⟨fun m hm => absurd hm List.not_mem_nil, fun a ha => absurd ha List.not_mem_nil⟩
    · exact h.within run hrun
  assigned := h.assigned
  descending := h.descending
  goesOn _ run hrun := by
    obtain rfl := Option.some.inj hrun
    exact fun a ha => absurd ha List.not_mem_nil
  ended hclosed := by cases hclosed
  separated := by
    refine List.isChain_cons.mpr ⟨fun run hrun hdirection => ?_, h.separated⟩
    have hclosed : r.isOpen = false :=
      Bool.eq_false_iff.mpr fun hopen => hother hopen run hrun hdirection
    obtain ⟨m, hm, hkind, hafter⟩ := h.ended hclosed run hrun
    exact ⟨m, hm, hkind, hafter, fun y hy => absurd hy List.not_mem_nil⟩

section

variable (hlast : ∀ m ∈ ms, m.1 < i)

include hlast

theorem Splits.extend {run : RecordRun} {runs : List RecordRun}
    (h : Splits ⟨run :: runs, true⟩ ms) (hrecord : ¬p.CarriesOther)
    (hdirection : run.direction = p.direction) :
    Splits ⟨{ run with members := (i, p) :: run.members } :: runs, true⟩ (ms ++ [(i, p)]) where
  within run' hrun' := by
    rcases List.mem_cons.mp hrun' with rfl | hrun'
    · exact (h.within run List.mem_cons_self).extend (h.goesOn rfl run rfl) hlast hrecord hdirection
    · exact (h.within run' (List.mem_cons_of_mem _ hrun')).append hlast
  assigned m hm hdata := by
    rcases List.mem_append.mp hm with hm | hm
    · exact List.mem_cons_of_mem _ (h.assigned m hm hdata)
    · exact List.mem_append_left _ (List.mem_singleton.mp hm ▸ List.mem_cons_self)
  descending :=
    List.pairwise_cons.mpr ⟨fun m hm => hlast m (h.mem_of_mem_members hm), h.descending⟩
  goesOn _ run' hrun' := by
    obtain rfl := Option.some.inj hrun'
    exact (h.goesOn rfl run rfl).extend hlast (SessionPacket.not_breaks hrecord hdirection)
  ended hclosed := by cases hclosed
  separated := by
    obtain ⟨hlatest, hearlier⟩ := List.isChain_cons.mp h.separated
    refine List.isChain_cons.mpr ⟨fun a ha hsame => (hlatest a ha hsame).extend hlast, ?_⟩
    exact hearlier.imp fun _ _ hab hsame => (hab hsame).append _

theorem Splits.pass (h : r.Splits ms) (hnone : p.packet.tlsRecord = none) :
    r.Splits (ms ++ [(i, p)]) where
  within run hrun := (h.within run hrun).append hlast
  assigned m hm hdata := by
    rcases List.mem_append.mp hm with hm | hm
    · exact h.assigned m hm hdata
    · rw [List.mem_singleton.mp hm] at hdata
      simp [SessionPacket.CarriesData, hnone] at hdata
  descending := h.descending
  goesOn hopen run hrun := (h.goesOn hopen run hrun).append (by
    simp [SessionPacket.Breaks, SessionPacket.CarriesOther, SessionPacket.CarriesData, hnone])
  ended hclosed run hrun := (h.ended hclosed run hrun).append _
  separated := h.separated.imp fun _ _ hab hsame => (hab hsame).append _

theorem Splits.close (h : r.Splits ms) (hother : p.CarriesOther) :
    Splits { r with isOpen := false } (ms ++ [(i, p)]) where
  within run hrun := (h.within run hrun).append hlast
  assigned m hm hdata := by
    rcases List.mem_append.mp hm with hm | hm
    · exact h.assigned m hm hdata
    · rw [List.mem_singleton.mp hm] at hdata
      exact absurd hother hdata.not_carriesOther
  descending := h.descending
  goesOn hopen := by cases hopen
  ended _ run hrun := ⟨_, List.mem_append_right _ List.mem_cons_self, hother, fun a ha =>
    hlast a ((h.within run (List.mem_of_mem_head? hrun)).member a ha).1⟩
  separated := h.separated.imp fun _ _ hab hsame => (hab hsame).append _

theorem Splits.add (h : r.Splits ms) : (r.add i p).Splits (ms ++ [(i, p)]) := by
  generalize hadd : r.add i p = t
  cases hadd ▸ r.adds_add i p with
  | extended hrecord hdirection => exact h.extend hlast hrecord hdirection
  | opened hdata hother => exact (h.begin hother).extend hlast hdata.not_carriesOther rfl
  | ignored hnone => exact h.pass hlast hnone
  | closed hother => exact h.close hlast hother

end

theorem splits_foldl (hascending : ms.Pairwise fun a b => a.1 < b.1) :
    (ms.foldl (fun r (i, p) => r.add i p) empty).Splits ms := by
  induction ms using List.reverseRecOn with
  | nil => exact splits_empty
  | append_singleton ms m ih =>
    obtain ⟨hms, -, hlast⟩ := List.pairwise_append.mp hascending
    rw [List.foldl_append]
    exact (ih hms).add fun a ha => hlast a ha m List.mem_cons_self

theorem Adds.inhabited {t : RecordRuns} (h : Adds i p r t)
    (hr : ∀ run ∈ r.runs, run.members ≠ []) : ∀ run ∈ t.runs, run.members ≠ [] := by
  cases h with
  | extended =>
    intro run hrun
    rcases List.mem_cons.mp hrun with rfl | hrun
    · exact List.cons_ne_nil _ _
    · exact hr run (List.mem_cons_of_mem _ hrun)
  | opened =>
    intro run hrun
    rcases List.mem_cons.mp hrun with rfl | hrun
    · exact List.cons_ne_nil _ _
    · exact hr run hrun
  | ignored => exact hr
  | closed => exact hr

theorem inhabited_foldl (ms : List (Nat × SessionPacket)) {r : RecordRuns}
    (hr : ∀ run ∈ r.runs, run.members ≠ []) :
    ∀ run ∈ (ms.foldl (fun r (i, p) => r.add i p) r).runs, run.members ≠ [] := by
  induction ms generalizing r with
  | nil => exact hr
  | cons m ms ih => exact ih ((r.adds_add m.1 m.2).inhabited hr)

end RecordRuns

/-- What a run says of the exchange it stands for. -/
structure RecordRun.Yields (run : RecordRun) (e : Exchange) : Prop where
  direction : e.direction = run.direction
  startLine : e.startLine = .encrypted
  first : ∃ m ∈ run.members, e.firstPacket = some m.1 ∧ ∀ a ∈ run.members, m.1 ≤ a.1
  last : ∃ m ∈ run.members, e.lastPacket = some m.1 ∧ ∀ a ∈ run.members, a.1 ≤ m.1
  wireBytes : e.wireBytes = (run.members.map (·.2.packet.payload.length)).sum

theorem RecordRun.yields_exchange {run : RecordRun} (hinhabited : run.members ≠ [])
    (hdescending : run.members.Pairwise fun a b => b.1 < a.1) (sessionIndex : Nat) :
    run.Yields (run.exchange sessionIndex) where
  direction := rfl
  startLine := rfl
  first := by
    obtain ⟨later, m, hmembers⟩ : ∃ later m, run.members = later ++ [m] :=
      ⟨_, _, (List.dropLast_append_getLast hinhabited).symm⟩
    rw [hmembers] at hdescending
    have hlast : run.members.getLast? = some m := by rw [hmembers, List.getLast?_concat]
    refine ⟨m, List.mem_of_getLast? hlast, congrArg (Option.map Prod.fst) hlast, fun a ha => ?_⟩
    rw [hmembers] at ha
    rcases List.mem_append.mp ha with ha | ha
    · exact Nat.le_of_lt
        ((List.pairwise_append.mp hdescending).2.2 a ha m List.mem_cons_self)
    · exact Nat.le_of_eq (congrArg Prod.fst (List.mem_singleton.mp ha)).symm
  last := by
    obtain ⟨m, earlier, hmembers⟩ := List.exists_cons_of_ne_nil hinhabited
    rw [hmembers] at hdescending
    have hhead : run.members.head? = some m := by rw [hmembers, List.head?_cons]
    refine ⟨m, List.mem_of_mem_head? hhead, congrArg (Option.map Prod.fst) hhead, fun a ha => ?_⟩
    rw [hmembers] at ha
    rcases List.mem_cons.mp ha with rfl | ha
    · exact Nat.le_refl _
    · exact Nat.le_of_lt (List.rel_of_pairwise_cons hdescending ha)
  wireBytes := rfl

namespace Session

/-- The packet at `i` has a payload, and the stream of its side takes it. -/
def Accepts (s : Session) (i : Nat) (p : SessionPacket) : Prop :=
  s.packets[i]? = some p ∧ p.packet.payload ≠ [] ∧
    i ∈ s.resolved (if p.direction = .downlink then .downlink else .uplink)

theorem Indexed.sameSide_of_mem_resolved {s : Session} (h : s.Indexed) {d : Direction} {i : Nat}
    {p : SessionPacket} (hi : i ∈ s.resolved d) (hp : s.packets[i]? = some p) :
    p.direction.sameSide d = true := by
  obtain ⟨⟨seq, c⟩, hc, rfl⟩ := List.mem_map.mp hi
  obtain ⟨q, hq, hseg⟩ := h.of_mem_chosen hc
  obtain rfl := Option.some.inj (hp.symm.trans hq)
  exact (Bool.and_eq_true_iff.mp (SessionPacket.segment?_eq_some.mp hseg).1).1

theorem Indexed.mem_accepted {s : Session} (h : s.Indexed) {i : Nat} {p : SessionPacket} :
    (i, p) ∈ s.accepted ↔ s.Accepts i p := by
  have hplace : (i, p) ∈ s.accepted ↔ s.packets[i]? = some p ∧ p.packet.payload ≠ [] ∧
      (i ∈ s.resolved .uplink ∨ i ∈ s.resolved .downlink) := by
    simp [accepted, List.mem_zipIdx_iff_getElem?]
  rw [hplace, Accepts, and_congr_right_iff]
  intro hp
  have hup := fun hi => h.sameSide_of_mem_resolved (d := .uplink) hi hp
  have hdown := fun hi => h.sameSide_of_mem_resolved (d := .downlink) hi hp
  cases hd : p.direction <;> simp_all [Direction.sameSide]

theorem accepted_ascending (s : Session) : s.accepted.Pairwise fun a b => a.1 < b.1 :=
  List.Pairwise.filter _ (List.pairwise_map.mpr (zipIdx_ascending s.packets))

/-- Runs of the application data that a session accepts. -/
structure DataRuns (s : Session) (runs : List RecordRun) : Prop where
  assigned : ∀ i p, s.Accepts i p → p.CarriesData →
    ∃! k : Nat, ∃ run : RecordRun, runs[k]? = some run ∧ (i, p) ∈ run.members
  members : ∀ run ∈ runs, ∀ m ∈ run.members, s.Accepts m.1 m.2 ∧ m.2.direction = run.direction ∧
    (m.2.CarriesData ∨ m.2.packet.tlsRecord = none)
  distinct : ∀ run ∈ runs, (run.members.map (·.1)).Nodup
  unbroken : ∀ run ∈ runs, ∀ a ∈ run.members, ∀ b ∈ run.members, ∀ i p, s.Accepts i p →
    a.1 < i → i < b.1 → ¬p.CarriesOther ∧ (p.CarriesData → p.direction = run.direction)
  separated : runs.IsChain fun a b => a.direction = b.direction →
    ∃ i p, s.Accepts i p ∧ p.CarriesOther ∧ (∀ x ∈ a.members, x.1 < i) ∧ ∀ y ∈ b.members, i < y.1

theorem Indexed.dataRuns {s : Session} (h : s.Indexed) : s.DataRuns s.recordRuns := by
  have hsplits := RecordRuns.splits_foldl s.accepted_ascending
  unfold recordRuns
  generalize s.accepted.foldl (fun r (i, p) => r.add i p) RecordRuns.empty = r at hsplits ⊢
  obtain ⟨hdescending, hafter⟩ := List.pairwise_flatMap.mp hsplits.descending
  refine ⟨fun i p hp hdata => ?_, fun run hrun m hm => ?_, fun run hrun => ?_,
    fun run hrun a ha b hb i p hp hai hib => ?_, ?_⟩
  · have hmem := hsplits.assigned _ (h.mem_accepted.mpr hp) hdata
    obtain ⟨run, hrun, hmem⟩ := List.mem_flatMap.mp hmem
    obtain ⟨k, hk⟩ := List.mem_iff_getElem?.mp (List.mem_reverse.mpr hrun)
    refine ⟨k, ⟨run, hk, hmem⟩, fun k' ⟨run', hk', hmem'⟩ => ?_⟩
    -- Of two runs all of the one comes before the other.
    have hbefore := List.pairwise_reverse.mpr hafter
    rcases Nat.lt_trichotomy k' k with hlt | heq | hlt
    · exact absurd (rel_of_lt_getElem? hbefore hk' hk hlt _ hmem _ hmem') (Nat.lt_irrefl i)
    · exact heq
    · exact absurd (rel_of_lt_getElem? hbefore hk hk' hlt _ hmem' _ hmem) (Nat.lt_irrefl i)
  · obtain ⟨haccepted, hdirection, hrecord⟩ :=
      (hsplits.within run (List.mem_reverse.mp hrun)).member m hm
    exact ⟨h.mem_accepted.mp haccepted, hdirection, SessionPacket.not_carriesOther_iff.mp hrecord⟩
  · exact List.pairwise_map.mpr ((hdescending run (List.mem_reverse.mp hrun)).imp Nat.ne_of_gt)
  · have hunbroken := (hsplits.within run (List.mem_reverse.mp hrun)).unbroken a ha b hb (i, p)
      (h.mem_accepted.mpr hp) hai hib
    refine ⟨fun hother => hunbroken (.inl hother), fun hdata => ?_⟩
    by_contra hne
    exact hunbroken (.inr ⟨hdata, hne⟩)
  · refine List.isChain_reverse.mpr (hsplits.separated.imp fun b a hab hsame => ?_)
    obtain ⟨⟨i, p⟩, hp, hother, hafter, hbefore⟩ := hab hsame
    exact ⟨i, p, h.mem_accepted.mp hp, hother, hafter, hbefore⟩

theorem yields_encryptedExchanges (s : Session) (sessionIndex : Nat) :
    List.Forall₂ RecordRun.Yields s.recordRuns (s.encryptedExchanges sessionIndex) := by
  have hinhabited := RecordRuns.inhabited_foldl s.accepted (r := .empty)
    fun run hrun => absurd hrun List.not_mem_nil
  have hsplits := RecordRuns.splits_foldl s.accepted_ascending
  refine List.forall₂_map_right_iff.mpr (List.forall₂_same.mpr fun run hrun => ?_)
  have hrun := List.mem_reverse.mp hrun
  exact run.yields_exchange (hinhabited run hrun)
    ((List.pairwise_flatMap.mp hsplits.descending).1 run hrun) sessionIndex

end Session

/-- The encrypted exchanges of a session are its runs of application data. -/
theorem dataRuns_ofPackets (key : SessionKey) (kind : TransportKind) (ps : List SessionPacket)
    (sessionIndex : Nat) :
    let s := Session.ofPackets key kind ps
    s.DataRuns s.recordRuns ∧
      List.Forall₂ RecordRun.Yields s.recordRuns (s.encryptedExchanges sessionIndex) :=
  ⟨(Session.indexed_ofPackets key kind ps).dataRuns, Session.yields_encryptedExchanges _ _⟩

end HttpCapture
