import HttpCapture.Proofs.CacheHistory
import HttpCapture.Proofs.DuplicateBytes
import HttpCapture.Proofs.ReplyOrder
import Mathlib.Algebra.GroupWithZero.Nat
import Mathlib.Algebra.Order.BigOperators.Group.List
import Mathlib.Algebra.Order.Group.Nat

/-! The accounts of a report balance. Every decision for a repeat credits one entry of the cache,
and entries keep what they were credited with when they are evicted or take another identity. -/

namespace HttpCapture

namespace CacheStore

/-- What each entry is credited with: the replies that repeat its object, and their bytes. -/
def credits (s : CacheStore) : List (List ExchangeRef × Nat) :=
  s.entries.map fun e => (e.duplicates, e.duplicateBytes)

theorem credits_countHit (s : CacheStore) (place : Nat) : (s.countHit place).credits = s.credits :=
  s.map_modifyEntry place fun _ => rfl

theorem credits_merge (s : CacheStore) (i : ObjectIdentity) (range : Option ByteRange) (r : Reply) :
    (s.merge i range r).credits = s.credits := by
  rw [credits, (s.listing_merge i range r).2.2, credits]

theorem credits_revalidate (s : CacheStore) (host path : String) :
    (s.revalidate host path).credits = s.credits := by
  unfold revalidate
  split
  · exact s.map_modifyEntry _ fun _ => rfl
  · rfl

theorem credits_replace (s : CacheStore) (place : Nat) (old new : ObjectIdentity)
    (request : ExchangeRef) (r : Reply) : (s.replace place old new request r).credits = s.credits :=
  s.map_modifyEntry place fun _ => rfl

theorem credits_addDuplicate (s : CacheStore) (place : Nat) (ref : ExchangeRef) (bytes : Nat) :
    (s.addDuplicate place ref bytes).credits =
      s.credits.modify place fun c => (c.1 ++ [ref], c.2 + bytes) := by
  refine List.ext_getElem? fun p => ?_
  rw [credits, addDuplicate, modifyEntry, credits, List.getElem?_map, List.getElem?_modify,
    List.getElem?_modify, List.getElem?_map]
  by_cases hp : place = p
  · simp [hp, Function.comp_def]
  · simp [hp]

theorem exists_credits_addDuplicate {s : CacheStore} {place : Nat} (h : place < s.entries.length)
    (ref : ExchangeRef) (bytes : Nat) :
    ∃ before refs n after, s.credits = before ++ (refs, n) :: after ∧
      (s.addDuplicate place ref bytes).credits = before ++ (refs ++ [ref], n + bytes) :: after := by
  have hlength : s.credits.length = s.entries.length := List.length_map _
  obtain ⟨before, ⟨refs, n⟩, after, hsplit, -, hmodify⟩ := List.exists_of_modify
    (fun c : List ExchangeRef × Nat => (c.1 ++ [ref], c.2 + bytes)) (hlength ▸ h)
  exact ⟨before, refs, n, after, hsplit, (s.credits_addDuplicate place ref bytes).trans hmodify⟩

end CacheStore

/-- The entries are credited with exactly the repeats among the decisions. -/
structure Credited (s : CacheStore) (ds : List CacheDecision) : Prop where
  occurrences : (s.credits.flatMap (·.1)).Perm
    ((ds.filter (·.diagnosis.isRepeat)).map (·.response))
  bytes : (s.credits.map (·.2)).sum = (ds.map (·.duplicateBytes)).sum
  idle : ∀ c ∈ s.credits, c.1 = [] → c.2 = 0

namespace Credited

variable {s t : CacheStore} {ds : List CacheDecision} {d : CacheDecision}

theorem empty : Credited .empty [] :=
  ⟨.nil, rfl, fun _ hc => absurd hc List.not_mem_nil⟩

/-- A decision for no repeat credits nobody; it may open an account. -/
theorem append_of_not_repeat (h : Credited s ds)
    (hc : t.credits = s.credits ∨ t.credits = s.credits ++ [([], 0)])
    (hd : d.diagnosis.isRepeat = false) (hb : d.duplicateBytes = 0) : Credited t (ds ++ [d]) := by
  have hfilter : (ds ++ [d]).filter (·.diagnosis.isRepeat) = ds.filter (·.diagnosis.isRepeat) := by
    simp [hd]
  have hsum : ((ds ++ [d]).map (·.duplicateBytes)).sum = (ds.map (·.duplicateBytes)).sum := by
    simp [hb]
  refine ⟨?_, ?_, ?_⟩
  · rw [hfilter]
    rcases hc with hc | hc <;> simpa [hc] using h.occurrences
  · rw [hsum]
    rcases hc with hc | hc <;> simpa [hc] using h.bytes
  · rcases hc with hc | hc
    · exact hc ▸ h.idle
    · intro c hmem
      rw [hc, List.mem_append, List.mem_singleton] at hmem
      rcases hmem with hmem | rfl
      · exact h.idle c hmem
      · exact fun _ => rfl

theorem append_of_repeat (h : Credited s ds) {before after : List (List ExchangeRef × Nat)}
    {refs : List ExchangeRef} {n : Nat} (hs : s.credits = before ++ (refs, n) :: after)
    (ht : t.credits = before ++ (refs ++ [d.response], n + d.duplicateBytes) :: after)
    (hd : d.diagnosis.isRepeat = true) : Credited t (ds ++ [d]) := by
  have hoccurrences := h.occurrences
  have hbytes := h.bytes
  rw [hs] at hoccurrences hbytes
  refine ⟨?_, ?_, ?_⟩
  · have hlast : (ds ++ [d]).filter (·.diagnosis.isRepeat) =
        ds.filter (·.diagnosis.isRepeat) ++ [d] := by simp [hd]
    rw [ht, hlast, List.map_append, List.flatMap_append, List.flatMap_cons, List.append_assoc,
      ← List.append_assoc]
    rw [List.flatMap_append, List.flatMap_cons, ← List.append_assoc] at hoccurrences
    exact (List.perm_append_comm_assoc _ _ _).trans <| by
      simpa using (List.perm_append_comm.trans (hoccurrences.append_right [d.response]))
  · rw [ht]
    simp only [List.map_append, List.map_cons, List.sum_append, List.sum_cons, List.map_nil,
      List.sum_nil] at hbytes ⊢
    omega
  · intro c hmem hnone
    have hidle := h.idle c
    rw [hs] at hidle
    rw [ht] at hmem
    rcases List.mem_append.mp hmem with hmem | hmem
    · exact hidle (List.mem_append_left _ hmem) hnone
    · rcases List.mem_cons.mp hmem with rfl | hmem
      · exact absurd hnone (by simp)
      · exact hidle (List.mem_append_right _ (List.mem_cons_of_mem _ hmem)) hnone

end Credited

namespace CacheRules

theorem Outcome.credited {rules : CacheRules} {s : CacheStore} {r : Reply}
    {o : CacheStore × CacheDecision} (ho : rules.Outcome s r o) {ds : List CacheDecision}
    (h : Credited s ds) : Credited o.1 (ds ++ [o.2]) := by
  cases ho with
  | ignored hno hd =>
    refine h.append_of_not_repeat (.inl rfl) ?_ rfl
    rcases hd with rfl | rfl | rfl <;> rfl
  | evicted => exact h.append_of_not_repeat (.inl rfl) rfl rfl
  | revalidated => exact h.append_of_not_repeat (.inl (s.credits_revalidate _ _)) rfl rfl
  | missed =>
    refine h.append_of_not_repeat (.inr ?_) rfl rfl
    rw [miss, CacheStore.credits_merge]
    simp [CacheStore.credits, CacheStore.insert]
  | changed =>
    refine h.append_of_not_repeat (.inl ?_) rfl rfl
    rw [CacheStore.credits_merge, CacheStore.credits_replace, CacheStore.credits_countHit]
  | @repeated a place entry judged d bytes uncovered hr hlook hmatch hd hbytes =>
    obtain ⟨before, refs, n, after, hs, hadd⟩ :=
      CacheStore.exists_credits_addDuplicate hmatch.lt_length_countHit r.ref bytes
    rw [CacheStore.credits_countHit] at hs
    exact h.append_of_repeat hs ((CacheStore.credits_merge _ _ _ _).trans hadd) hd

theorem credited_visitsFrom (rules : CacheRules) (rs : List Reply) :
    Credited (rules.storeAfter rs) ((rules.visitsFrom .empty rs).map (·.decision)) := by
  induction rs using List.reverseRecOn with
  | nil => exact .empty
  | append_singleton rs r ih =>
    have ho := rules.outcome_step (rules.consistent_storeAfter rs) r
    rw [storeAfter_append_singleton, visitsFrom_append_singleton, List.map_append]
    exact ho.credited ih

theorem of_mem_visits {rules : CacheRules} {sessions : List Session} {v : Visit}
    (hv : v ∈ rules.visits sessions) :
    v.decision.response = v.reply.ref ∧ v.decision.duplicateBytes ≤ v.reply.bodyBytes := by
  obtain ⟨n, hn⟩ := List.mem_iff_getElem?.mp hv
  rw [visits, getElem?_visitsFrom, Option.map_eq_some_iff] at hn
  obtain ⟨r, -, rfl⟩ := hn
  have ho := rules.outcome_step (rules.consistent_storeAfter ((repliesOf sessions).take n)) r
  exact ⟨ho.response, (ho.duplicateBytes_le (rules.piecesFrom_storeAfter _)).1⟩

end CacheRules

namespace CacheStore

theorem occurrences_duplicateEntries (s : CacheStore) :
    s.duplicateEntries.flatMap (·.occurrences) = s.credits.flatMap (·.1) := by
  unfold duplicateEntries credits
  induction s.entries with
  | nil => rfl
  | cons e es ih =>
    cases hd : e.duplicates with
    | nil => simpa [hd] using ih
    | cons ref refs => simpa [hd] using ih

theorem bytes_duplicateEntries {s : CacheStore} (hidle : ∀ c ∈ s.credits, c.1 = [] → c.2 = 0) :
    (s.duplicateEntries.map (·.bytes)).sum = (s.credits.map (·.2)).sum := by
  unfold duplicateEntries
  unfold credits at hidle ⊢
  revert hidle
  induction s.entries with
  | nil => exact fun _ => rfl
  | cons e es ih =>
    intro hidle
    have ih := ih fun c hc => hidle c (List.mem_cons_of_mem _ hc)
    have he : e.duplicates = [] → e.duplicateBytes = 0 := hidle _ List.mem_cons_self
    cases hd : e.duplicates with
    | nil => simpa [hd, he hd] using ih
    | cons ref refs => simpa [hd] using ih

end CacheStore

theorem exists_only_of_mem_flatMap {α β : Type} [DecidableEq β] {l : List α} {f : α → List β}
    (h : (l.flatMap f).Nodup) {b : β} (hb : b ∈ l.flatMap f) :
    ∃ before a after, l = before ++ a :: after ∧ (f a).count b = 1 ∧
      ∀ other ∈ before ++ after, b ∉ f other := by
  obtain ⟨a, ha, hmem⟩ := List.mem_flatMap.mp hb
  obtain ⟨before, after, rfl⟩ := List.append_of_mem ha
  obtain ⟨hnodup, hdisjoint⟩ := List.nodup_flatMap.mp h
  obtain ⟨-, hafter, hbefore⟩ := List.pairwise_append.mp hdisjoint
  refine ⟨before, a, after, rfl, List.count_eq_one_of_mem (hnodup a (by simp)) hmem, ?_⟩
  intro other hother hagain
  rcases List.mem_append.mp hother with hother | hother
  · exact hbefore other hother a List.mem_cons_self hagain hmem
  · exact List.rel_of_pairwise_cons hafter hother hmem hagain

namespace CacheReport

/-- What a report says of sessions balances. -/
structure AccountsFor (report : CacheReport) (sessions : List Session) : Prop where
  /-- There is a decision for each response exchange, and only one. -/
  decided : ∀ ref, (∃ d ∈ report.decisions, d.response = ref) ↔
    ∃ e ∈ exchangeAt? sessions ref, e.isResponse = true
  distinct : (report.decisions.map (·.response)).Nodup
  ordered : (report.decisions.map (·.response)).Pairwise (ArrivesBefore sessions)
  counts : ∀ d n, (d, n) ∈ report.diagnosisCounts ↔
    0 < n ∧ n = report.decisions.countP (·.diagnosis = d)
  counted : (report.diagnosisCounts.map (·.2)).sum = report.decisions.length
  buckets : ∀ f refs, (f, refs) ∈ report.byFreshness ↔
    refs ≠ [] ∧ refs = (report.decisions.filter (·.freshness = some f)).map (·.response)
  bucketed : (report.byFreshness.flatMap (·.2)).Perm
    ((report.decisions.filter (·.freshness.isSome)).map (·.response))
  /-- A repeat occurs once, in one entry; nothing else occurs in any. -/
  repeats : ∀ d ∈ report.decisions, d.diagnosis.isRepeat = true →
    ∃ before entry after, report.duplicates = before ++ entry :: after ∧
      entry.occurrences.count d.response = 1 ∧
      ∀ other ∈ before ++ after, d.response ∉ other.occurrences
  others : ∀ entry ∈ report.duplicates, ∀ ref ∈ entry.occurrences,
    ∃ d ∈ report.decisions, d.response = ref ∧ d.diagnosis.isRepeat = true
  decisionBytes : (report.decisions.map (·.duplicateBytes)).sum = report.duplicateBytes
  entryBytes : (report.duplicates.map (·.bytes)).sum = report.duplicateBytes
  total : report.totalResponseBytes = (sessions.map fun s =>
    ((s.exchanges.filter Exchange.isResponse).map fun e =>
      e.capturedLength (s.stream e.direction).length).sum).sum
  bounded : report.duplicateBytes ≤ report.totalResponseBytes

end CacheReport

theorem sum_bodyBytes_unsortedReplies (sessions : List Session) :
    ((unsortedReplies sessions).map Reply.bodyBytes).sum = (sessions.map fun s =>
      ((s.exchanges.filter Exchange.isResponse).map fun e =>
        e.capturedLength (s.stream e.direction).length).sum).sum := by
  have hreplies : ∀ (s : Session) (i : Nat), ((s.replies i).map Reply.bodyBytes).sum =
      ((s.exchanges.filter Exchange.isResponse).map fun e =>
        e.capturedLength (s.stream e.direction).length).sum := by
    intro s i
    rw [Session.replies, List.map_map]
    rfl
  rw [unsortedReplies, List.map_flatMap, List.flatMap, List.sum_flatten, List.map_map]
  simp only [Function.comp_def, hreplies]
  rw [← List.zipIdx_map_fst 0 sessions, List.map_map]
  simp [Function.comp_def]

namespace CacheRules

variable (rules : CacheRules) {sessions : List Session}

theorem responses_report (sessions : List Session) :
    (rules.report sessions).decisions.map (·.response) = (repliesOf sessions).map (·.ref) := by
  rw [← rules.map_decision_visits, ← rules.map_reply_visits, List.map_map, List.map_map]
  exact List.map_congr_left fun v hv => (of_mem_visits hv).1

theorem nodup_responses_report (hnumbered : ∀ s ∈ sessions, s.Numbered) :
    ((rules.report sessions).decisions.map (·.response)).Nodup :=
  rules.responses_report sessions ▸ nodup_refs_repliesOf hnumbered

theorem mem_responses_report (hnumbered : ∀ s ∈ sessions, s.Numbered) (ref : ExchangeRef) :
    (∃ d ∈ (rules.report sessions).decisions, d.response = ref) ↔
      ∃ e ∈ exchangeAt? sessions ref, e.isResponse = true := by
  have hmem : (∃ d ∈ (rules.report sessions).decisions, d.response = ref) ↔
      ∃ r ∈ unsortedReplies sessions, r.ref = ref := by
    rw [← List.mem_map, rules.responses_report, List.mem_map]
    simp only [(repliesOf_perm sessions).mem_iff]
  rw [hmem]
  constructor
  · rintro ⟨r, hr, rfl⟩
    exact ⟨r.response, exchangeAt?_of_mem hnumbered hr⟩
  · rintro ⟨e, he, hresponse⟩
    exact exists_reply_of_exchangeAt? hnumbered he hresponse

theorem credited_report (sessions : List Session) :
    Credited (rules.storeAfter (repliesOf sessions)) (rules.report sessions).decisions := by
  rw [← rules.map_decision_visits]
  exact rules.credited_visitsFrom _

theorem occurrences_report (sessions : List Session) :
    ((rules.report sessions).duplicates.flatMap (·.occurrences)).Perm
      (((rules.report sessions).decisions.filter (·.diagnosis.isRepeat)).map (·.response)) := by
  have hcredited := (rules.credited_report sessions).occurrences
  rwa [← CacheStore.occurrences_duplicateEntries, storeAfter,
    ← rules.duplicates_report] at hcredited

theorem duplicateBytes_report_le (sessions : List Session) :
    (rules.report sessions).duplicateBytes ≤ (rules.report sessions).totalResponseBytes := by
  have htallies := rules.tallies_report sessions
  have hduplicate : (rules.report sessions).duplicateBytes =
      ((rules.visits sessions).map (·.decision.duplicateBytes)).sum := by
    rw [htallies.duplicateBytes, ← htallies.decisions, ← rules.map_decision_visits, List.map_map]
    rfl
  have htotal : (rules.report sessions).totalResponseBytes =
      ((rules.visits sessions).map (·.reply.bodyBytes)).sum := by
    rw [htallies.totalResponseBytes, ← rules.map_reply_visits, List.map_map]
    rfl
  rw [hduplicate, htotal]
  exact List.sum_le_sum fun v hv => (of_mem_visits hv).2

end CacheRules

/-- Each response is judged once, in order of arrival, and all tallies of the report agree. -/
theorem report_accounts (rules : CacheRules) (ts : List (Session × ReadingLimits × Nat)) :
    (rules.report (Session.reassembleEach ts)).AccountsFor (Session.reassembleEach ts) := by
  have hnumbered : ∀ s ∈ Session.reassembleEach ts, s.Numbered :=
    Session.numbered_of_mem_reassembleEach
  generalize Session.reassembleEach ts = sessions at *
  have hdistinct := rules.nodup_responses_report hnumbered
  have htallies := rules.tallies_report sessions
  have hcredited := rules.credited_report sessions
  have hoccurrences := rules.occurrences_report sessions
  have hrepeats : (((rules.report sessions).decisions.filter (·.diagnosis.isRepeat)).map
      (·.response)).Nodup := hdistinct.sublist (List.filter_sublist.map _)
  exact {
    decided := rules.mem_responses_report hnumbered
    distinct := hdistinct
    ordered := rules.responses_report sessions ▸ repliesOf_ordered hnumbered
    counts := fun _ _ => by rw [htallies.diagnosisCounts, htallies.decisions, mem_countDiagnoses]
    counted := by rw [htallies.diagnosisCounts, htallies.decisions, sum_countDiagnoses]
    buckets := fun _ _ => by rw [htallies.byFreshness, htallies.decisions, mem_sortByFreshness]
    bucketed := by
      rw [htallies.byFreshness, htallies.decisions]
      exact sortByFreshness_perm _
    repeats := fun d hd hrepeat => exists_only_of_mem_flatMap (hoccurrences.nodup_iff.mpr hrepeats)
      (hoccurrences.mem_iff.mpr (List.mem_map_of_mem (List.mem_filter.mpr ⟨hd, hrepeat⟩)))
    others := by
      intro entry hentry ref href
      obtain ⟨d, hd, rfl⟩ :=
        List.mem_map.mp (hoccurrences.mem_iff.mp (List.mem_flatMap.mpr ⟨entry, hentry, href⟩))
      obtain ⟨hd, hrepeat⟩ := List.mem_filter.mp hd
      exact ⟨d, hd, rfl, hrepeat⟩
    decisionBytes := by rw [htallies.duplicateBytes, htallies.decisions]
    entryBytes := by
      rw [rules.duplicates_report, htallies.duplicateBytes, ← htallies.decisions]
      exact (CacheStore.bytes_duplicateEntries hcredited.idle).trans hcredited.bytes
    total := htallies.totalResponseBytes.trans <|
      (((repliesOf_perm sessions).map _).sum_eq).trans (sum_bodyBytes_unsortedReplies sessions)
    bounded := rules.duplicateBytes_report_le sessions }

/-- The first object is repeated and then evicted; the one fetched next is
changed and then repeated. -/
theorem report_accounts_of_eviction :
    let rules : CacheRules := ⟨.standard, .standard⟩
    let reply := fun control body => sampleReply "200 OK" ("Cache-Control: " ++ control) body
    let s := sampleConversation
      [reply "no-cache" "ab", reply "no-cache" "ab", reply "no-store" "ab",
        reply "no-cache" "ab", reply "no-cache" "cd", reply "no-cache" "cd"]
    let sessions := Session.reassembleEach [(s, ⟨.standard, 200⟩, 0)]
    (rules.report sessions).AccountsFor sessions ∧
      (rules.report sessions).decisions.map (fun d => (d.diagnosis, d.duplicateBytes)) =
        [(.cacheMiss, 0), (.objNotChangedDupClient, 12), (.notCacheable, 0), (.cacheMiss, 0),
          (.objChanged, 0), (.objNotChangedDupClient, 12)] ∧
      (rules.report sessions).duplicates.map (fun e => (e.occurrences, e.bytes)) =
        [([⟨0, 7⟩], 12), ([⟨0, 11⟩], 12)] := by
  intro rules reply s sessions
  refine ⟨report_accounts rules _, ?_⟩
  have hreplies : repliesOf sessions = unsortedReplies [s.listedAsFound ⟨.standard, 200⟩ 0] :=
    repliesOf_reassembleEach (by decide) (by decide) (by decide +kernel) (by decide +kernel)
  rw [(rules.tallies_report sessions).decisions, rules.duplicates_report, hreplies]
  decide +kernel

end HttpCapture
