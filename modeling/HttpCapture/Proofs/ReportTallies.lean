import HttpCapture.Cache.Report
import HttpCapture.Proofs.Tables
import Mathlib.Algebra.GroupWithZero.Nat
import Mathlib.Data.List.Nodup

/-! What the tallies of a report say of its decisions. They are kept as the replies are judged, and
each comes to what one would count afterwards: the cases that occur, in their order. -/

namespace HttpCapture

/-- Sorting what has a label by its label loses nothing and repeats nothing. -/
theorem flatMap_filter_perm {α β : Type} [DecidableEq β] {labels : List β} (hlabels : labels.Nodup)
    (label : α → Option β) {l : List α} (hall : ∀ x ∈ l, ∀ b ∈ label x, b ∈ labels) :
    (labels.flatMap fun b => l.filter fun x => label x = some b).Perm
      (l.filter fun x => (label x).isSome) := by
  induction l with
  | nil => simp
  | cons x l ih =>
    have ih := ih fun y hy => hall y (List.mem_cons_of_mem _ hy)
    cases hx : label x with
    | none => simpa [hx] using ih
    | some b =>
      obtain ⟨before, after, rfl⟩ := List.append_of_mem (hall x List.mem_cons_self b hx)
      have hne : ∀ c ∈ before ++ after, b ≠ c := by
        have hb := (List.nodup_middle.mp hlabels)
        rintro c hc rfl
        exact (List.nodup_cons.mp hb).1 hc
      have hother : ∀ labels' : List β, (∀ c ∈ labels', b ≠ c) →
          (labels'.flatMap fun c => (x :: l).filter fun y => label y = some c) =
            labels'.flatMap fun c => l.filter fun y => label y = some c := by
        intro labels' hlabels'
        refine List.flatMap_congr fun c hc => ?_
        simp [hx, hlabels' c hc]
      rw [List.flatMap_append, List.flatMap_cons, hother before fun c hc => hne c (by simp [hc]),
        hother after fun c hc => hne c (by simp [hc])]
      rw [List.flatMap_append, List.flatMap_cons] at ih
      simpa [hx] using List.perm_middle.trans (ih.cons x)

theorem Diagnosis.mem_all (d : Diagnosis) : d ∈ all := by cases d <;> decide

theorem Diagnosis.rank_ascending : all.Pairwise fun c d => c.rank < d.rank := by decide

theorem Freshness.mem_all (f : Freshness) : f ∈ all := by cases f <;> decide

theorem Freshness.rank_ascending : all.Pairwise fun f g => f.rank < g.rank := by decide

/-- How often each diagnosis that occurs does so. -/
def countDiagnoses (ds : List CacheDecision) : Table Diagnosis Nat :=
  .tabulate (0 < ·) (fun c => ds.countP (·.diagnosis = c)) Diagnosis.all

/-- The responses of each judgement of freshness that occurs. -/
def sortByFreshness (ds : List CacheDecision) : Table Freshness (List ExchangeRef) :=
  .tabulate (!·.isEmpty) (fun f => (ds.filter (·.freshness = some f)).map (·.response))
    Freshness.all

theorem countDiagnoses_append_singleton (ds : List CacheDecision) (d : CacheDecision) :
    countDiagnoses (ds ++ [d]) =
      (countDiagnoses ds).amend Diagnosis.rank d.diagnosis 0 (· + 1) := by
  unfold countDiagnoses
  rw [Table.amend_tabulate Diagnosis.rank_ascending d.diagnosis.mem_all (by simp) (by simp)]
  refine Table.tabulate_congr fun c _ => ?_
  rw [List.countP_append, List.countP_singleton]
  by_cases hc : c = d.diagnosis
  · simp [hc]
  · simp [hc, Ne.symm hc]

theorem sortByFreshness_append_singleton (ds : List CacheDecision) (d : CacheDecision) :
    sortByFreshness (ds ++ [d]) =
      match d.freshness with
      | none => sortByFreshness ds
      | some f => (sortByFreshness ds).amend Freshness.rank f [] (· ++ [d.response]) := by
  unfold sortByFreshness
  cases hd : d.freshness with
  | none =>
    refine Table.tabulate_congr fun g _ => ?_
    simp [hd]
  | some f =>
    dsimp only
    rw [Table.amend_tabulate Freshness.rank_ascending f.mem_all (by simp) (by simp)]
    refine Table.tabulate_congr fun g _ => ?_
    by_cases hg : g = f
    · simp [hd, hg]
    · simp [hd, hg, Ne.symm hg]

theorem mem_countDiagnoses {ds : List CacheDecision} {c : Diagnosis} {n : Nat} :
    (c, n) ∈ countDiagnoses ds ↔ 0 < n ∧ n = ds.countP (·.diagnosis = c) := by
  rw [countDiagnoses, Table.mem_tabulate, decide_eq_true_eq, and_iff_right c.mem_all, and_comm]

theorem mem_sortByFreshness {ds : List CacheDecision} {f : Freshness} {refs : List ExchangeRef} :
    (f, refs) ∈ sortByFreshness ds ↔
      refs ≠ [] ∧ refs = (ds.filter (·.freshness = some f)).map (·.response) := by
  rw [sortByFreshness, Table.mem_tabulate, Bool.not_eq_true', List.isEmpty_eq_false_iff,
    and_iff_right f.mem_all, and_comm]

theorem sum_countDiagnoses (ds : List CacheDecision) :
    ((countDiagnoses ds).map (·.2)).sum = ds.length := by
  have hperm := flatMap_filter_perm (show Diagnosis.all.Nodup by decide)
    (fun d : CacheDecision => some d.diagnosis) (l := ds) fun d _ _ _ => Diagnosis.mem_all _
  have hpos : ∀ l : List (Diagnosis × Nat),
      ((l.filter (0 < ·.2)).map (·.2)).sum = (l.map (·.2)).sum := by
    intro l
    induction l with
    | nil => rfl
    | cons x l ih =>
      rcases Nat.eq_zero_or_pos x.2 with hx | hx <;> simp [hx, ih]
  rw [countDiagnoses, Table.tabulate, hpos, List.map_map]
  simp only [Option.some.injEq, Option.isSome_some, List.filter_true] at hperm
  simpa [List.length_flatMap, List.countP_eq_length_filter, Function.comp_def] using
    hperm.length_eq

theorem sortByFreshness_perm (ds : List CacheDecision) :
    ((sortByFreshness ds).flatMap (·.2)).Perm
      ((ds.filter (·.freshness.isSome)).map (·.response)) := by
  have hperm := flatMap_filter_perm (show Freshness.all.Nodup by decide)
    (·.freshness) (l := ds) fun d _ _ _ => Freshness.mem_all _
  have hnonempty : ∀ l : List (Freshness × List ExchangeRef),
      (l.filter (!·.2.isEmpty)).flatMap (·.2) = l.flatMap (·.2) := by
    intro l
    induction l with
    | nil => rfl
    | cons x l ih => cases hx : x.2 <;> simp [hx, ih]
  rw [sortByFreshness, Table.tabulate, hnonempty, List.flatMap_map]
  simpa [List.map_flatMap] using hperm.map (·.response)

namespace CacheReport

/-- A report tells what was decided on some replies. -/
structure Tallies (report : CacheReport) (rs : List Reply) (ds : List CacheDecision) : Prop where
  decisions : report.decisions = ds
  totalResponseBytes : report.totalResponseBytes = (rs.map Reply.bodyBytes).sum
  duplicateBytes : report.duplicateBytes = (ds.map (·.duplicateBytes)).sum
  byFreshness : report.byFreshness = sortByFreshness ds
  diagnosisCounts : report.diagnosisCounts = countDiagnoses ds

theorem tallies_empty : empty.Tallies [] [] := ⟨rfl, rfl, rfl, rfl, rfl⟩

theorem Tallies.add {report : CacheReport} {rs : List Reply} {ds : List CacheDecision}
    (h : report.Tallies rs ds) (r : Reply) (d : CacheDecision) :
    (report.add r d).Tallies (rs ++ [r]) (ds ++ [d]) where
  decisions := by rw [CacheReport.add, h.decisions]
  totalResponseBytes := by simp [CacheReport.add, h.totalResponseBytes]
  duplicateBytes := by simp [CacheReport.add, h.duplicateBytes]
  byFreshness := by
    rw [sortByFreshness_append_singleton, ← h.byFreshness]
    rfl
  diagnosisCounts := by
    rw [countDiagnoses_append_singleton, ← h.diagnosisCounts]
    rfl

end CacheReport

namespace CacheRules

/-- Replies judged in turn: the cache in the end, and the decisions. -/
def replay (rules : CacheRules) (s : CacheStore) : List Reply → CacheStore × List CacheDecision
  | [] => (s, [])
  | r :: rs =>
    let (s, d) := rules.step s r
    let (s, ds) := rules.replay s rs
    (s, d :: ds)

theorem foldl_record (rules : CacheRules) (rs : List Reply) (s : CacheStore) {report : CacheReport}
    {before : List Reply} {ds : List CacheDecision} (h : report.Tallies before ds) :
    (rs.foldl rules.record (s, report)).1 = (rules.replay s rs).1 ∧
      (rs.foldl rules.record (s, report)).2.Tallies (before ++ rs)
        (ds ++ (rules.replay s rs).2) := by
  induction rs generalizing s report before ds with
  | nil => simpa [replay] using h
  | cons r rs ih =>
    have hrest := ih (rules.step s r).1 (h.add r (rules.step s r).2)
    simpa [replay, record] using hrest

variable (rules : CacheRules) (sessions : List Session)

theorem duplicates_report : (rules.report sessions).duplicates =
    (rules.replay .empty (repliesOf sessions)).1.duplicateEntries :=
  congrArg CacheStore.duplicateEntries
    (rules.foldl_record (repliesOf sessions) .empty CacheReport.tallies_empty).1

/-- The tallies kept in a replay agree with its decisions. -/
theorem tallies_report : (rules.report sessions).Tallies (repliesOf sessions)
    (rules.replay .empty (repliesOf sessions)).2 := by
  obtain ⟨hdecisions, htotal, hduplicate, hfreshness, hcounts⟩ :=
    (rules.foldl_record (repliesOf sessions) .empty CacheReport.tallies_empty).2
  exact ⟨hdecisions, htotal, hduplicate, hfreshness, hcounts⟩

end CacheRules

end HttpCapture
