import HttpCapture.Proofs.SessionRuns
import HttpCapture.Proofs.Tables

/-! Where a packet goes. The index names the latest session of each flow, as one session is pushed
to after another and as new ones are opened, so packets of other flows between do not matter. -/

namespace HttpCapture

namespace Grouping

/-- The place of the latest session of a flow. -/
def latest? (sessions : List Session) (key : SessionKey) (kind : TransportKind) : Option Nat :=
  (placesWhere (·.isOf key kind) sessions).getLast?

theorem latest?_append_singleton (sessions : List Session) (s : Session) (key : SessionKey)
    (kind : TransportKind) : latest? (sessions ++ [s]) key kind =
      if s.isOf key kind then some sessions.length else latest? sessions key kind := by
  rw [latest?, placesWhere_append_singleton]
  split <;> simp [latest?]

theorem latest?_modify (sessions : List Session) (place : Nat) {f : Session → Session}
    {key : SessionKey} {kind : TransportKind} (hf : ∀ s, (f s).isOf key kind = s.isOf key kind) :
    latest? (sessions.modify place f) key kind = latest? sessions key kind := by
  have hplaces : ∀ l : List Session,
      placesWhere (·.isOf key kind) l = placesWhere id (l.map (·.isOf key kind)) := by
    intro l
    simp [placesWhere, List.zipIdx_map, List.filter_map, Function.comp_def]
  have hmap : (sessions.modify place f).map (·.isOf key kind) =
      sessions.map (·.isOf key kind) := by
    refine List.ext_getElem? fun i => ?_
    rw [List.getElem?_map, List.getElem?_modify, List.getElem?_map]
    by_cases hi : place = i
    · simp [hi, hf, Function.comp_def]
    · simp [hi]
  rw [latest?, latest?, hplaces, hplaces, hmap]

/-- The latest session of a flow is there, and no session behind it is of the flow. -/
theorem latest?_cases (sessions : List Session) (key : SessionKey) (kind : TransportKind) :
    (latest? sessions key kind = none ∧ ∀ s ∈ sessions, s.isOf key kind = false) ∨
      ∃ before s after, sessions = before ++ s :: after ∧
        latest? sessions key kind = some before.length ∧ s.isOf key kind = true ∧
        ∀ t ∈ after, t.isOf key kind = false := by
  induction sessions using List.reverseRecOn with
  | nil => exact .inl ⟨rfl, by simp⟩
  | append_singleton l s ih =>
    rw [latest?_append_singleton]
    cases hs : s.isOf key kind with
    | true => exact .inr ⟨l, s, [], rfl, rfl, hs, by simp⟩
    | false =>
      rw [if_neg (by simp)]
      rcases ih with ⟨hnone, hall⟩ | ⟨before, t, after, rfl, hsome, ht, hafter⟩
      · refine .inl ⟨hnone, fun u hu => ?_⟩
        rcases List.mem_append.mp hu with hu | hu
        · exact hall u hu
        · exact List.mem_singleton.mp hu ▸ hs
      · refine .inr ⟨before, t, after ++ [s], by simp, hsome, ht, fun u hu => ?_⟩
        rcases List.mem_append.mp hu with hu | hu
        · exact hafter u hu
        · exact List.mem_singleton.mp hu ▸ hs

variable {g : Grouping}

/-- The index names the latest session of each flow. -/
def IndexesLatest (g : Grouping) : Prop :=
  ∀ key kind, (g.index kind).get? key = latest? g.sessions key kind

theorem get?_index_openSession (g : Grouping) (key k : SessionKey) (kind t : TransportKind) :
    ((g.openSession key kind).1.index t).get? k =
      if key = k ∧ kind = t then some g.sessions.length else (g.index t).get? k := by
  cases kind <;> cases t <;> simp [openSession, index, Table.get?_put, eq_comm]

theorem sessions_openSession (g : Grouping) (key : SessionKey) (kind : TransportKind) :
    (g.openSession key kind).1.sessions = g.sessions ++ [.new key kind] ∧
      (g.openSession key kind).2 = g.sessions.length := by
  cases kind <;> exact ⟨rfl, rfl⟩

theorem sessions_learnNames (g : Grouping) (p : Packet) :
    (g.learnNames p).sessions = g.sessions ∧ (g.learnNames p).index = g.index := by
  unfold learnNames
  split <;> exact ⟨rfl, rfl⟩

theorem indexesLatest_empty : empty.IndexesLatest := by
  intro key kind
  cases kind <;> rfl

namespace IndexesLatest

theorem learnNames (h : g.IndexesLatest) (p : Packet) : (g.learnNames p).IndexesLatest := by
  intro key kind
  rw [(g.sessions_learnNames p).1, (g.sessions_learnNames p).2]
  exact h key kind

theorem openSession (h : g.IndexesLatest) (key : SessionKey) (kind : TransportKind) :
    (g.openSession key kind).1.IndexesLatest := by
  intro k t
  have hnew : (Session.new key kind).isOf k t = decide (key = k ∧ kind = t) := rfl
  rw [get?_index_openSession, (g.sessions_openSession key kind).1, latest?_append_singleton, h k t,
    hnew]
  by_cases hk : key = k ∧ kind = t
  · rw [if_pos hk, if_pos (decide_eq_true hk)]
  · rw [if_neg hk, if_neg (by simp [hk])]

theorem modify (h : g.IndexesLatest) (place : Nat) (p : Packet) (d : Direction) (guessed : Bool) :
    IndexesLatest { g with sessions := g.sessions.modify place (enter p d guessed) } := by
  intro key kind
  rw [latest?_modify _ _ fun s => isOf_enter key kind]
  exact h key kind

theorem add (h : g.IndexesLatest) (p : Packet) : (g.add p).IndexesLatest := by
  unfold Grouping.add
  dsimp only
  split
  · exact (h.learnNames p).modify _ _ _ _
  · exact ((h.learnNames p).openSession _ _).modify _ _ _ _

end IndexesLatest

theorem indexesLatest_foldl_add (ps : List Packet) :
    (ps.foldl Grouping.add .empty).IndexesLatest := by
  induction ps using List.reverseRecOn with
  | nil => exact indexesLatest_empty
  | append_singleton ps p ih =>
    rw [List.foldl_append]
    exact ih.add p

theorem IndexesLatest.target?_eq (h : g.IndexesLatest) (p : Packet) (d : Direction) :
    (g.learnNames p).target? p d = (latest? g.sessions p.key p.kind).filter fun i =>
      g.sessions[i]?.any (continuesSession · p d) := by
  rw [target?, (g.sessions_learnNames p).1, (g.sessions_learnNames p).2, h]

theorem sessions_add_of_target? (g : Grouping) (p : Packet) :
    (g.add p).sessions =
      match (g.learnNames p).target? p (settleDirection p).1 with
      | some place =>
        g.sessions.modify place (enter p (settleDirection p).1 (settleDirection p).2)
      | none => g.sessions ++
        [enter p (settleDirection p).1 (settleDirection p).2 (.new p.key p.kind)] := by
  have hnames := (g.sessions_learnNames p).1
  obtain ⟨hopened, hplace⟩ := (g.learnNames p).sessions_openSession p.key p.kind
  unfold add
  dsimp only
  cases (g.learnNames p).target? p (settleDirection p).1 with
  | some place => rw [hnames]
  | none =>
    rw [hopened, hplace, hnames, List.modify_eq_take_cons_drop (by simp)]
    simp

/-- A packet goes to the last session of its flow, or opens a new one. -/
theorem IndexesLatest.sessions_add (h : g.IndexesLatest) (p : Packet) :
    (∃ before s after, g.sessions = before ++ s :: after ∧ s.isOf p.key p.kind = true ∧
      (∀ t ∈ after, t.isOf p.key p.kind = false) ∧
      continuesSession s p (settleDirection p).1 = true ∧
      (g.add p).sessions =
        before ++ enter p (settleDirection p).1 (settleDirection p).2 s :: after) ∨
    (∀ s ∈ (g.sessions.filter (·.isOf p.key p.kind)).getLast?,
      continuesSession s p (settleDirection p).1 = false) ∧
      (g.add p).sessions = g.sessions ++
        [enter p (settleDirection p).1 (settleDirection p).2 (.new p.key p.kind)] := by
  rw [sessions_add_of_target?, h.target?_eq]
  rcases latest?_cases g.sessions p.key p.kind with
    ⟨hnone, hall⟩ | ⟨before, s, after, hsplit, hsome, hs, hafter⟩
  · right
    have hfilter : g.sessions.filter (·.isOf p.key p.kind) = [] :=
      List.filter_eq_nil_iff.mpr fun s hs => by simp [hall s hs]
    rw [hnone, hfilter]
    exact ⟨by simp, rfl⟩
  · have hat : g.sessions[before.length]? = some s := by simp [hsplit]
    rw [hsome, Option.filter_some, hat, Option.any_some]
    cases hc : continuesSession s p (settleDirection p).1 with
    | true =>
      left
      refine ⟨before, s, after, hsplit, hs, hafter, hc, ?_⟩
      rw [if_pos rfl, hsplit]
      dsimp only
      rw [List.modify_eq_take_cons_drop (by simp)]
      simp
    | false =>
      right
      have hlast : (g.sessions.filter (·.isOf p.key p.kind)).getLast? = some s := by
        have hnone : after.filter (·.isOf p.key p.kind) = [] :=
          List.filter_eq_nil_iff.mpr fun t ht => by simp [hafter t ht]
        rw [hsplit, List.filter_append, List.filter_cons_of_pos hs, hnone, List.getLast?_concat]
      rw [if_neg (by simp), hlast]
      refine ⟨fun t ht => ?_, rfl⟩
      rw [← Option.some.inj ht, hc]

end Grouping

end HttpCapture
