import HttpCapture.Proofs.ObjectChanges
import HttpCapture.Proofs.ReportAccounts

/-! Where the original of a duplicate stands. An entry keeps what it was credited with when its
object changes, but from then on it gives the reply with the change as the original. So the original
comes before all of its duplicates just when none of them was followed by a change of the entry. -/

namespace HttpCapture

namespace Visit

def repeats (place : Nat) (v : Visit) : Bool :=
  v.place == some place && v.decision.diagnosis.isRepeat

/-- Whether the entry at a place took another object. -/
def changes (place : Nat) (v : Visit) : Bool :=
  v.place == some place && v.decision.diagnosis == .objChanged

variable {v : Visit} {place : Nat}

theorem repeats_of_not_isRepeat (hd : v.decision.diagnosis.isRepeat = false) (place : Nat) :
    v.repeats place = false := by
  rw [repeats, hd, Bool.and_false]

theorem repeats_iff (hplace : v.place = some place) (hd : v.decision.diagnosis.isRepeat = true)
    (p : Nat) : v.repeats p = true ↔ p = place := by
  simpa [repeats, hplace, hd] using eq_comm

theorem repeats_of_names (h : v.names place = true) : v.repeats place = false := by
  cases hrepeat : v.decision.diagnosis.isRepeat with
  | false => exact repeats_of_not_isRepeat hrepeat place
  | true => exact absurd h (by simp [names_of_isRepeat hrepeat])

theorem names_of_changes (h : v.changes place = true) : v.names place = true := by
  simp only [changes, Bool.and_eq_true, beq_iff_eq] at h
  simp [names, h.1, h.2]

theorem miss_or_changes_of_names (h : v.names place = true) :
    v.place = some place ∧ v.decision.diagnosis = .cacheMiss ∨ v.changes place = true := by
  simp only [names, Bool.and_eq_true, Bool.or_eq_true, beq_iff_eq] at h
  obtain ⟨hplace, hmiss | hchange⟩ := h
  · exact .inl ⟨hplace, hmiss⟩
  · exact .inr (by simp [changes, hplace, hchange])

end Visit

namespace CacheStore

/-- Every entry is credited with the repeats that matched it, in turn. -/
def CreditsRepeats (visits : List Visit) (s : CacheStore) : Prop :=
  ∀ place, (s.credits[place]?.map (·.1)).getD [] =
    (visits.filter (·.repeats place)).map (·.reply.ref)

namespace CreditsRepeats

variable {visits : List Visit} {v : Visit} {s t : CacheStore}

theorem append_of_not_repeat (h : CreditsRepeats visits s)
    (hd : v.decision.diagnosis.isRepeat = false)
    (ht : t.credits = s.credits ∨ t.credits = s.credits ++ [([], 0)]) :
    CreditsRepeats (visits ++ [v]) t := by
  intro place
  have hsame : (t.credits[place]?.map (·.1)).getD [] = (s.credits[place]?.map (·.1)).getD [] := by
    rcases ht with ht | ht
    · rw [ht]
    · rw [ht, List.getElem?_append]
      split
      · rfl
      · next hlt =>
        rw [List.getElem?_eq_none (Nat.le_of_not_lt hlt)]
        cases place - s.credits.length <;> rfl
  rw [hsame, h place, List.filter_append,
    List.filter_cons_of_neg (by simp [Visit.repeats_of_not_isRepeat hd]), List.filter_nil,
    List.append_nil]

theorem append_of_repeat (h : CreditsRepeats visits s) {place bytes : Nat}
    (hlt : place < s.credits.length) (hv : ∀ p, v.repeats p = true ↔ p = place)
    (ht : t.credits = s.credits.modify place fun c => (c.1 ++ [v.reply.ref], c.2 + bytes)) :
    CreditsRepeats (visits ++ [v]) t := by
  intro p
  have hp := h p
  rw [ht, List.getElem?_modify, List.filter_append, List.map_append, ← hp]
  by_cases heq : place = p
  · subst heq
    rw [List.filter_cons_of_pos ((hv place).mpr rfl), List.getElem?_eq_getElem hlt]
    simp
  · have hneg : ¬v.repeats p = true := fun hrepeat => heq ((hv p).mp hrepeat).symm
    rw [List.filter_cons_of_neg hneg]
    simp [heq]

end CreditsRepeats

theorem exists_entry_of_mem_duplicateEntries {s : CacheStore} {d : DuplicateEntry}
    (h : d ∈ s.duplicateEntries) :
    ∃ place : Nat, (s.storedReplies[place]?.map fun r => r.ref) = some d.original ∧
      (s.credits[place]?.map (·.1)).getD [] = d.occurrences := by
  obtain ⟨e, he, rfl⟩ := List.mem_map.mp h
  obtain ⟨place, hplace⟩ := List.mem_iff_getElem?.mp (List.mem_of_mem_filter he)
  refine ⟨place, ?_, ?_⟩
  · rw [storedReplies, List.getElem?_map, hplace]
    rfl
  · rw [credits, List.getElem?_map, hplace]
    rfl

end CacheStore

namespace CacheRules

variable {rules : CacheRules}

theorem Outcome.creditsRepeats {visits : List Visit} {s : CacheStore} {r : Reply}
    {o : CacheStore × CacheDecision} (ho : rules.Outcome s r o) (h : s.CreditsRepeats visits) :
    o.1.CreditsRepeats (visits ++ [Visit.of s r o.2]) := by
  cases ho with
  | ignored hno hd =>
    refine h.append_of_not_repeat ?_ (.inl rfl)
    rcases hd with rfl | rfl | rfl <;> rfl
  | evicted => exact h.append_of_not_repeat rfl (.inl rfl)
  | revalidated => exact h.append_of_not_repeat rfl (.inl (s.credits_revalidate _ _))
  | missed =>
    refine h.append_of_not_repeat rfl (.inr ?_)
    rw [miss, CacheStore.credits_merge]
    simp [CacheStore.credits, CacheStore.insert]
  | changed =>
    refine h.append_of_not_repeat rfl (.inl ?_)
    rw [CacheStore.credits_merge, CacheStore.credits_replace, CacheStore.credits_countHit]
  | @repeated a place entry judged d bytes uncovered hr hlook hmatch hd hbytes =>
    have hlt : place < s.credits.length := by
      rw [CacheStore.credits, List.length_map]
      exact (List.getElem?_eq_some_iff.mp hmatch.present).1
    have hcredits := (s.countHit place).credits_addDuplicate place r.ref bytes
    rw [CacheStore.credits_countHit] at hcredits
    exact h.append_of_repeat hlt (Visit.repeats_iff (Visit.place_of_found rfl hlook) hd)
      ((CacheStore.credits_merge _ _ _ _).trans hcredits)

theorem creditsRepeats_visitsFrom (rules : CacheRules) (rs : List Reply) :
    (rules.storeAfter rs).CreditsRepeats (rules.visitsFrom .empty rs) := by
  induction rs using List.reverseRecOn with
  | nil => exact fun _ => rfl
  | append_singleton rs r ih =>
    rw [storeAfter_append_singleton, visitsFrom_append_singleton]
    exact (rules.outcome_step (rules.consistent_storeAfter rs) r).creditsRepeats ih

theorem Outcome.place_of_cacheMiss {s : CacheStore} {r : Reply} {o : CacheStore × CacheDecision}
    (ho : rules.Outcome s r o) (hmiss : o.2.diagnosis = .cacheMiss) :
    (Visit.of s r o.2).place = some s.entries.length := by
  cases ho with
  | ignored hno hd =>
    rcases hd with rfl | rfl | rfl <;> exact absurd hmiss (by simp [Reply.rejected])
  | evicted => exact absurd hmiss (by simp [Reply.rejected])
  | revalidated => exact absurd hmiss (by simp [Reply.rejected])
  | missed hr hnone => exact Visit.place_of_missed rfl hnone
  | changed => exact absurd hmiss (by simp)
  | repeated hr hlook hmatch hd =>
    dsimp only at hmiss
    exact absurd (hmiss ▸ hd) (by decide)

/-- An entry is new where a reply misses, so nothing repeated it before. -/
theorem repeats_before_miss {rs : List Reply} {before after : List Visit} {v : Visit} {place : Nat}
    (hsplit : rules.visitsFrom .empty rs = before ++ v :: after) (hplace : v.place = some place)
    (hmiss : v.decision.diagnosis = .cacheMiss) : ∀ w ∈ before, w.repeats place = false := by
  have hbefore : rules.visitsFrom .empty (rs.take before.length) = before := by
    rw [← rules.take_visitsFrom, hsplit, List.take_left]
  have hv : (rules.visitsFrom .empty rs)[before.length]? = some v := by rw [hsplit]; simp
  rw [getElem?_visitsFrom, Option.map_eq_some_iff] at hv
  obtain ⟨r, -, rfl⟩ := hv
  have ho := rules.outcome_step (rules.consistent_storeAfter (rs.take before.length)) r
  have hlast := Option.some.inj (hplace.symm.trans (ho.place_of_cacheMiss hmiss))
  have hnone : (rules.storeAfter (rs.take before.length)).credits[place]? = none := by
    rw [List.getElem?_eq_none_iff, CacheStore.credits, List.length_map, hlast]
  have hcredits := rules.creditsRepeats_visitsFrom (rs.take before.length) place
  rw [hnone, hbefore] at hcredits
  simpa using hcredits.symm

end CacheRules

theorem exists_last_of_getLast?_filter {α : Type} {p : α → Bool} {l : List α} {x : α}
    (h : (l.filter p).getLast? = some x) :
    ∃ before after, l = before ++ x :: after ∧ p x = true ∧ ∀ y ∈ after, p y = false := by
  rw [List.getLast?_eq_head?_reverse, ← List.filter_reverse, List.head?_filter,
    List.find?_eq_some_iff_append] at h
  obtain ⟨hx, after, before, hsplit, hafter⟩ := h
  refine ⟨before.reverse, after.reverse, ?_, hx, fun y hy => ?_⟩
  · rw [← List.reverse_reverse l, hsplit]
    simp
  · simpa using hafter y (List.mem_reverse.mp hy)

/-- The first reply is judged before the second. -/
def CacheReport.Before (report : CacheReport) (a b : ExchangeRef) : Prop :=
  [a, b].Sublist (report.decisions.map (·.response))

/-- The entry at a place, as a report tells of it: the replies that repeated it, and the reply by
which it was created or last changed. -/
structure DuplicateEntry.IsAt (entry : DuplicateEntry) (visits : List Visit) (place : Nat) :
    Prop where
  occurrences : entry.occurrences = (visits.filter (·.repeats place)).map (·.reply.ref)
  original : (storedBy visits place).map (·.ref) = some entry.original

namespace CacheRules

variable {rules : CacheRules} {sessions : List Session} {entry : DuplicateEntry}

theorem exists_isAt_of_mem_duplicates (h : entry ∈ (rules.report sessions).duplicates) :
    ∃ place, entry.IsAt (rules.visits sessions) place := by
  rw [duplicates_report] at h
  obtain ⟨place, horiginal, hoccurrences⟩ := CacheStore.exists_entry_of_mem_duplicateEntries h
  refine ⟨place, ?_, ?_⟩
  · rw [← hoccurrences]
    exact rules.creditsRepeats_visitsFrom (repliesOf sessions) place
  · rw [← horiginal]
    exact congrArg _ (rules.storesLast_visitsFrom (repliesOf sessions) place).symm

/-- The last reply that names an entry is a change if a repeat of the entry stands before it. -/
theorem pairwise_no_change_iff {before after : List Visit} {last : Visit} {place : Nat}
    (hsplit : rules.visits sessions = before ++ last :: after) (hlast : last.names place = true)
    (hafter : ∀ w ∈ after, w.names place = false) :
    ((rules.visits sessions).Pairwise fun v w => v.repeats place = true → w.changes place = false) ↔
      ∀ w ∈ before, w.repeats place = false := by
  constructor
  · intro hpairwise w hw
    rcases Visit.miss_or_changes_of_names hlast with ⟨hplace, hmiss⟩ | hchange
    · exact repeats_before_miss hsplit hplace hmiss w hw
    · rw [hsplit, List.pairwise_append] at hpairwise
      have hunchanged := hpairwise.2.2 w hw last List.mem_cons_self
      exact Bool.eq_false_iff.mpr fun hrepeat => by simp [hunchanged hrepeat] at hchange
  · intro hbefore
    have hnot : ∀ w ∈ after, w.changes place = false := fun w hw =>
      Bool.eq_false_iff.mpr fun hchange => by
        simpa [hafter w hw] using Visit.names_of_changes hchange
    rw [hsplit, List.pairwise_append, List.pairwise_cons]
    refine ⟨?_, ⟨fun w hw _ => hnot w hw, ?_⟩, ?_⟩
    · exact List.pairwise_of_forall_mem_list
        fun v hv w _ hrepeat => by simp [hbefore v hv] at hrepeat
    · exact List.pairwise_of_forall_mem_list fun v _ w hw _ => hnot w hw
    · exact fun v hv w _ hrepeat => by simp [hbefore v hv] at hrepeat

end CacheRules

theorem pair_sublist_iff_of_nodup {α : Type} {before after : List α} {x y : α}
    (h : (before ++ x :: after).Nodup) : [x, y].Sublist (before ++ x :: after) ↔ y ∈ after := by
  have hx : x ∉ before := fun hmem => (List.nodup_append.mp h).2.2 x hmem x List.mem_cons_self rfl
  constructor
  · intro hsub
    obtain ⟨l, l', hl, hbefore, hafter⟩ := List.sublist_append_iff.mp hsub
    cases l with
    | nil =>
      rw [List.nil_append] at hl
      rwa [← hl, List.cons_sublist_cons, List.singleton_sublist] at hafter
    | cons z l =>
      obtain ⟨rfl, -⟩ := List.cons.inj hl
      exact absurd (hbefore.subset List.mem_cons_self) hx
  · intro hy
    exact (List.cons_sublist_cons.mpr (List.singleton_sublist.mpr hy)).trans
      (List.sublist_append_right _ _)

/-- The original of a duplicate is judged before all its occurrences just when none of them is
followed by a change of the entry. -/
theorem original_before_occurrences_iff (rules : CacheRules)
    (ts : List (Session × ReadingLimits × Nat)) {entry : DuplicateEntry}
    (hentry : entry ∈ (rules.report (Session.reassembleEach ts)).duplicates) :
    let visits := rules.visits (Session.reassembleEach ts)
    ∃ place, entry.IsAt visits place ∧
      ((∀ ref ∈ entry.occurrences,
          (rules.report (Session.reassembleEach ts)).Before entry.original ref) ↔
        visits.Pairwise fun v w => v.repeats place = true → w.changes place = false) := by
  have hnumbered : ∀ s ∈ Session.reassembleEach ts, s.Numbered :=
    Session.numbered_of_mem_reassembleEach
  generalize Session.reassembleEach ts = sessions at *
  intro visits
  obtain ⟨place, hat⟩ := CacheRules.exists_isAt_of_mem_duplicates hentry
  refine ⟨place, hat, ?_⟩
  obtain ⟨stored, hstored, horiginal⟩ := Option.map_eq_some_iff.mp hat.original
  obtain ⟨last, hlast, rfl⟩ := Option.map_eq_some_iff.mp hstored
  obtain ⟨before, after, hsplit, hnames, hafter⟩ := exists_last_of_getLast?_filter hlast
  rw [CacheRules.pairwise_no_change_iff hsplit hnames hafter]
  have hrefs : (rules.report sessions).decisions.map (·.response) =
      before.map (·.reply.ref) ++ entry.original :: after.map (·.reply.ref) := by
    rw [rules.responses_report, ← rules.map_reply_visits, hsplit, ← horiginal, List.map_map,
      List.map_append, List.map_cons]
    rfl
  have hnodup := rules.nodup_responses_report hnumbered
  simp only [CacheReport.Before, hrefs] at hnodup ⊢
  simp only [pair_sublist_iff_of_nodup hnodup, hat.occurrences]
  -- No reply is judged twice, so the repeats before `last` are the ones that do not come after it.
  constructor
  · intro hall w hw
    refine Bool.eq_false_iff.mpr fun hrepeat => ?_
    have hmem : w ∈ rules.visits sessions := hsplit ▸ List.mem_append_left _ hw
    have hagain := hall w.reply.ref (List.mem_map_of_mem (List.mem_filter.mpr ⟨hmem, hrepeat⟩))
    exact (List.nodup_append.mp hnodup).2.2 _ (List.mem_map_of_mem hw) _
      (List.mem_cons_of_mem _ hagain) rfl
  · intro hbefore ref href
    obtain ⟨w, hw, rfl⟩ := List.mem_map.mp href
    obtain ⟨hw, hrepeat⟩ := List.mem_filter.mp hw
    rw [hsplit, List.mem_append, List.mem_cons] at hw
    rcases hw with hw | rfl | hw
    · simp [hbefore w hw] at hrepeat
    · simp [Visit.repeats_of_names hnames] at hrepeat
    · exact List.mem_map_of_mem hw

/-- Replies to one path, each to be asked for again before its object may be used. -/
def sampleUncached (bodies : List String) : Session :=
  sampleConversation (bodies.map (sampleReply "200 OK" "Cache-Control: no-cache"))

/-- The object changes once and is then repeated. -/
theorem original_before_occurrences_iff_of_early_change :
    let rules : CacheRules := ⟨.standard, .standard⟩
    let sessions :=
      Session.reassembleEach [(sampleUncached ["ab", "cd", "cd"], ⟨.standard, 200⟩, 0)]
    ∃ entry ∈ (rules.report sessions).duplicates,
      (entry.original = ⟨0, 4⟩ ∧ entry.occurrences = [⟨0, 5⟩] ∧
        (rules.report sessions).Before entry.original ⟨0, 5⟩) ∧
      ∃ place, entry.IsAt (rules.visits sessions) place ∧
        ((∀ ref ∈ entry.occurrences, (rules.report sessions).Before entry.original ref) ↔
          (rules.visits sessions).Pairwise
            fun v w => v.repeats place = true → w.changes place = false) := by
  intro rules sessions
  have hreplies : repliesOf sessions = unsortedReplies
      [(sampleUncached ["ab", "cd", "cd"]).listedAsFound ⟨.standard, 200⟩ 0] :=
    repliesOf_reassembleEach (by decide) (by decide) (by decide +kernel) (by decide +kernel)
  have hduplicates : ((rules.report sessions).duplicates.map fun e => (e.original, e.occurrences)) =
      [(⟨0, 4⟩, [⟨0, 5⟩])] := by
    rw [rules.duplicates_report, hreplies]
    decide +kernel
  have hresponses : (rules.report sessions).decisions.map (·.response) =
      [⟨0, 3⟩, ⟨0, 4⟩, ⟨0, 5⟩] := by
    rw [rules.responses_report, hreplies]
    decide +kernel
  obtain ⟨entry, rest, hrun, hentry, -⟩ := List.map_eq_cons_iff.mp hduplicates
  obtain ⟨horiginal, hoccurrences⟩ := Prod.mk.inj hentry
  have hmem : entry ∈ (rules.report sessions).duplicates := hrun ▸ List.mem_cons_self
  refine ⟨entry, hmem, ⟨horiginal, hoccurrences, ?_⟩, original_before_occurrences_iff rules _ hmem⟩
  rw [CacheReport.Before, hresponses, horiginal]
  decide

/-- The object is repeated and then changes: the change is the original, and the earlier repeat
stays an occurrence of it. -/
theorem original_after_occurrence_of_late_change :
    let rules : CacheRules := ⟨.standard, .standard⟩
    let sessions :=
      Session.reassembleEach [(sampleUncached ["ab", "ab", "cd"], ⟨.standard, 200⟩, 0)]
    ¬∀ entry ∈ (rules.report sessions).duplicates, ∀ ref ∈ entry.occurrences,
      (rules.report sessions).Before entry.original ref := by
  intro rules sessions
  have hreplies : repliesOf sessions = unsortedReplies
      [(sampleUncached ["ab", "ab", "cd"]).listedAsFound ⟨.standard, 200⟩ 0] :=
    repliesOf_reassembleEach (by decide) (by decide) (by decide +kernel) (by decide +kernel)
  have hduplicates : ((rules.report sessions).duplicates.map fun e => (e.original, e.occurrences)) =
      [(⟨0, 5⟩, [⟨0, 4⟩])] := by
    rw [rules.duplicates_report, hreplies]
    decide +kernel
  have hresponses : (rules.report sessions).decisions.map (·.response) =
      [⟨0, 3⟩, ⟨0, 4⟩, ⟨0, 5⟩] := by
    rw [rules.responses_report, hreplies]
    decide +kernel
  obtain ⟨entry, rest, hrun, hentry, -⟩ := List.map_eq_cons_iff.mp hduplicates
  obtain ⟨horiginal, hoccurrences⟩ := Prod.mk.inj hentry
  intro hall
  have hbefore := hall entry (hrun ▸ List.mem_cons_self) ⟨0, 4⟩ (by rw [hoccurrences]; decide)
  rw [CacheReport.Before, hresponses, horiginal] at hbefore
  exact absurd hbefore (by decide)

end HttpCapture
