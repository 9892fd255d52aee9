import HttpCapture.Proofs.CacheContents
import HttpCapture.Proofs.ReplyRanges
import HttpCapture.Proofs.StaleResponses

/-! What a fresh entry lacks of a reply. The ranges kept for an entry are those of the replies taken
in since it was created or last changed, in whatever order they came. So the bytes that it lacks are
counted by the positions that none of those replies carries. -/

namespace HttpCapture

/-- The replies that visits have taken into the entry at a place since it was
created or last changed. -/
def acceptedBy (visits : List Visit) (place : Nat) : List Reply :=
  visits.foldl (fun held v =>
    if v.names place then [v.reply]
    else if v.place = some place then held ++ [v.reply]
    else held) []

section

variable {visits : List Visit} {v : Visit} {place : Nat}

theorem acceptedBy_append (visits : List Visit) (v : Visit) (place : Nat) :
    acceptedBy (visits ++ [v]) place =
      if v.names place then [v.reply]
      else if v.place = some place then acceptedBy visits place ++ [v.reply]
      else acceptedBy visits place :=
  List.foldl_append

theorem acceptedBy_append_of_place_ne (h : v.place ≠ some place) :
    acceptedBy (visits ++ [v]) place = acceptedBy visits place := by
  have hnames : v.names place = false := by simp [Visit.names, h]
  rw [acceptedBy_append, if_neg (by simp [hnames]), if_neg h]

theorem acceptedBy_append_of_names (h : v.names place = true) :
    acceptedBy (visits ++ [v]) place = [v.reply] := by
  rw [acceptedBy_append, if_pos h]

theorem acceptedBy_append_of_place (h : v.place = some place) (hnames : v.names place = false) :
    acceptedBy (visits ++ [v]) place = acceptedBy visits place ++ [v.reply] := by
  rw [acceptedBy_append, if_neg (by simp [hnames]), if_pos h]

end

/-- The positions that a reply carries and none of the others does. -/
def Reply.missing (c : Completeness) (r : Reply) (others : List Reply) : Finset Nat :=
  (r.positions c).filter fun x => ∀ p ∈ others, x ∉ p.positions c

/-- The reply was compared with an entry that may be used unasked. -/
def Diagnosis.isFresh (d : Diagnosis) : Bool := d == .notExpiredDup || d == .notExpiredDupPartialHit

namespace CacheStore

/-- The ranges kept for a listed entry are those of the replies that it has taken in. -/
def Accumulates (c : Completeness) (visits : List Visit) (s : CacheStore) : Prop :=
  ∀ i place, s.byIdentity.get? i = some place → ∀ x,
    x ∈ RangeSet.positions ((s.ranges.get? i).getD []) ↔
      ∃ p ∈ acceptedBy visits place, x ∈ p.positions c

namespace Accumulates

variable {c : Completeness} {visits : List Visit} {v : Visit} {s t : CacheStore}

theorem append_of_place_none (h : s.Accumulates c visits) (hplace : v.place = none)
    (ht : ∀ i place, t.byIdentity.get? i = some place →
      s.byIdentity.get? i = some place ∧ t.ranges.get? i = s.ranges.get? i) :
    t.Accumulates c (visits ++ [v]) := by
  intro i place hp x
  obtain ⟨hlisted, hranges⟩ := ht i place hp
  have hne : v.place ≠ some place := by simp [hplace]
  rw [hranges, acceptedBy_append_of_place_ne hne]
  exact h i place hlisted x

/-- One entry takes in a reply; the others are left as they are. -/
theorem append_of_merge (h : s.Accumulates c visits) {place : Nat} {new : ObjectIdentity}
    (hplace : v.place = some place) (hapart : RangeSet.Apart ((t.ranges.get? new).getD []))
    (hheld : ∀ x, x ∈ RangeSet.positions ((t.ranges.get? new).getD []) ∨ x ∈ v.reply.positions c ↔
      ∃ p ∈ acceptedBy (visits ++ [v]) place, x ∈ p.positions c)
    (hother : ∀ i p, t.byIdentity.get? i = some p → i = new ∧ p = place ∨
      i ≠ new ∧ p ≠ place ∧ s.byIdentity.get? i = some p ∧ t.ranges.get? i = s.ranges.get? i) :
    (t.merge new (v.reply.objectRange c) v.reply).Accumulates c (visits ++ [v]) := by
  intro i p hp x
  rw [(t.listing_merge _ _ _).1] at hp
  rcases hother i p hp with ⟨rfl, rfl⟩ | ⟨hi, hne, hlisted, hranges⟩
  · rw [positions_merge hapart, Finset.mem_union, or_comm]
    exact hheld x
  · have hp : v.place ≠ some p := by
      rw [hplace]
      exact fun he => hne (Option.some.inj he).symm
    rw [get?_ranges_merge, if_neg hi, hranges, acceptedBy_append_of_place_ne hp]
    exact h i p hlisted x

/-- A new or changed entry has taken in nothing but the reply that it holds. -/
theorem append_of_names (h : s.Accumulates c visits) {place : Nat} {new : ObjectIdentity}
    (hplace : v.place = some place) (hnames : v.names place = true)
    (hnone : t.ranges.get? new = none)
    (hother : ∀ i p, t.byIdentity.get? i = some p → i = new ∧ p = place ∨
      i ≠ new ∧ p ≠ place ∧ s.byIdentity.get? i = some p ∧ t.ranges.get? i = s.ranges.get? i) :
    (t.merge new (v.reply.objectRange c) v.reply).Accumulates c (visits ++ [v]) := by
  refine h.append_of_merge hplace ?_ (fun x => ?_) hother
  · rw [hnone]
    exact RangeSet.apart_nil
  · simp [hnone, acceptedBy_append_of_names hnames, RangeSet.positions]

end Accumulates

end CacheStore

namespace CacheRules

variable {rules : CacheRules} {s : CacheStore} {r : Reply} {o : CacheStore × CacheDecision}

theorem Outcome.accumulates {visits : List Visit} (ho : rules.Outcome s r o) (hs : s.Consistent)
    (hkept : ∀ i, s.HoldsAt rules.completeness i) (h : s.Accumulates rules.completeness visits) :
    o.1.Accumulates rules.completeness (visits ++ [Visit.of s r o.2]) := by
  cases ho with
  | ignored => exact h.append_of_place_none rfl fun i place hp => ⟨hp, rfl⟩
  | @evicted a =>
    refine h.append_of_place_none rfl fun i place hp => ?_
    rw [CacheStore.get?_evict_byIdentity] at hp
    rw [CacheStore.get?_ranges_evict]
    split at hp
    · cases hp
    · next hat => exact ⟨hp, if_neg hat⟩
  | @revalidated a =>
    obtain ⟨-, hranges, -⟩ := s.tables_revalidate a.host a.path
    refine h.append_of_place_none rfl fun i place hp => ?_
    rw [(s.listing_revalidate _ _).1] at hp
    exact ⟨hp, by rw [hranges]⟩
  | @missed a hr hnone =>
    have hfree := ((hs.lookup_eq_none_iff _).mp hnone).1
    have hplace : (Visit.of s r (rules.miss s r a (rules.identityOf r a)).2).place =
        some s.entries.length := Visit.place_of_missed rfl hnone
    have hnames := (Visit.names_iff hplace (.inl rfl) s.entries.length).mpr rfl
    refine h.append_of_names hplace hnames ((hkept _).unlisted hfree).2 fun i p hp => ?_
    rw [CacheStore.get?_byIdentity_insert] at hp
    by_cases hi : i = rules.identityOf r a
    · rw [if_pos hi] at hp
      exact .inl ⟨hi, (Option.some.inj hp).symm⟩
    · rw [if_neg hi] at hp
      exact .inr ⟨hi, (hs.lt_length_entries hp).ne, hp, rfl⟩
  | @changed a place entry judged hr hlook hmatch =>
    have hplace : (Visit.of s r ⟨r.ref, some a.ref, some (rules.identityOf r a), .objChanged,
        some judged, 0, 0⟩).place = some place := Visit.place_of_found rfl hlook
    have hnames := (Visit.names_iff hplace (.inr rfl) place).mpr rfl
    refine h.append_of_names hplace hnames ?_ fun i p hp => ?_
    · rw [CacheStore.get?_ranges_replace]
      split
      · rfl
      · next hne =>
        -- The new identity is not that of the entry, so it was listed for none.
        have hfree := (hmatch.tag.resolve_left fun he => hne he.symm).2
        exact ((hkept _).unlisted hfree).2
    · rw [CacheStore.get?_byIdentity_replace] at hp
      by_cases hi : i = rules.identityOf r a
      · rw [if_pos hi] at hp
        exact .inl ⟨hi, (Option.some.inj hp).symm⟩
      · rw [if_neg hi] at hp
        split at hp
        · cases hp
        · next hold =>
          have hne : p ≠ place := fun he => hold (hs.eq_of_listed (he ▸ hp) hmatch.listed)
          rw [CacheStore.get?_ranges_replace, if_neg hold]
          exact .inr ⟨hi, hne, hp, rfl⟩
  | @repeated a place entry judged d bytes uncovered hr hlook hmatch hd hbytes =>
    have hplace :
        (Visit.of s r ⟨r.ref, some a.ref, some (rules.identityOf r a), d, some judged, bytes,
        uncovered⟩).place = some place := Visit.place_of_found rfl hlook
    refine h.append_of_merge hplace (hkept _).apart (fun x => ?_) fun i p hp => ?_
    · rw [acceptedBy_append_of_place hplace (Visit.names_of_isRepeat hd place)]
      have hheld := h entry.identity place hmatch.listed x
      simp only [List.mem_append, List.mem_singleton, or_and_right, exists_or,
        exists_eq_left, ← hheld]
      exact Iff.rfl
    · by_cases hi : i = entry.identity
      · exact .inl ⟨hi, Option.some.inj ((hi ▸ hp).symm.trans hmatch.listed)⟩
      · have hne : p ≠ place := fun he => hi (hs.eq_of_listed (he ▸ hp) hmatch.listed)
        exact .inr ⟨hi, hne, hp, rfl⟩

theorem accumulates_visitsFrom (rules : CacheRules) (rs : List Reply) :
    (rules.storeAfter rs).Accumulates rules.completeness (rules.visitsFrom .empty rs) := by
  induction rs using List.reverseRecOn with
  | nil =>
    intro i place hp
    cases hp
  | append_singleton rs r ih =>
    have hs := rules.consistent_storeAfter rs
    rw [storeAfter_append_singleton, visitsFrom_append_singleton]
    exact (rules.outcome_step hs r).accumulates hs (rules.holdsAt_storeAfter rs) ih

/-- The decision to which a comparison leads, and the bytes that it counts as new. -/
theorem compare_uncovered (rules : CacheRules) {s : CacheStore} {entry : CacheEntry} {r : Reply}
    (a : Asked) (judged : Freshness) {held : RangeSet}
    (hheld : (s.ranges.get? entry.identity).getD [] = held) (hapart : held.Apart)
    (hrange : ∀ range ∈ r.objectRange rules.completeness, range.Countable) :
    let result := rules.compare s entry r a judged
    let lacking := (r.positions rules.completeness \ held.positions).card
    (result.1.isFresh = true → result.2.2 = lacking ∧ (result.1 = .notExpiredDup ↔ lacking = 0)) ∧
      (result.1.isFresh = false → result.2.2 = 0) := by
  intro result lacking
  by_cases hfresh : (!judged.isExpired) = true
  · cases hr : r.objectRange rules.completeness with
    | none =>
      have hnone : lacking = 0 := by simp [lacking, Reply.positions, hr]
      have hresult : result.1 = .notExpiredDup ∧ result.2.2 = 0 := by
        simp [result, compare, hfresh, hr]
      simp [hresult, hnone]
    | some range =>
      obtain ⟨hne, hcount⟩ := hrange range hr
      have hlacking : held.uncovered range = lacking := by
        have heq := hapart.uncovered_eq hne hcount
        simpa [lacking, Reply.positions, hr] using heq
      have hcovers : held.covers range = true ↔ lacking = 0 := by
        rw [hapart.covers_iff hne]
        simp [lacking, Reply.positions, hr]
      have hresult : result.1 =
          (if held.covers range then .notExpiredDup else .notExpiredDupPartialHit) ∧
            result.2.2 = lacking := by
        rw [← hlacking]
        cases hranges : s.ranges.get? entry.identity with
        | none =>
          obtain rfl : [] = held := by simpa [hranges] using hheld
          simp [result, compare, hfresh, hr, hranges, RangeSet.covers, RangeSet.uncovered, hne]
        | some kept =>
          obtain rfl : kept = held := by simpa [hranges] using hheld
          simp [result, compare, hfresh, hr, hranges]
      by_cases hheld : held.covers range = true
      · simp [hresult, hheld, hcovers.mp hheld]
      · simp [hresult, hheld, mt hcovers.mpr hheld, Diagnosis.isFresh]
  · have hresult : result.1.isFresh = false ∧ result.2.2 = 0 := by
      simp only [result, compare]
      rw [if_neg hfresh]
      split
      · split <;> exact ⟨rfl, rfl⟩
      · exact ⟨rfl, rfl⟩
    simp [hresult]

/-- A reply is compared with the entry at a place, to the given diagnosis and number of new
bytes. -/
def ComparedAt (rules : CacheRules) (s : CacheStore) (r : Reply) (place : Nat) : Prop :=
  ∃ a entry judged, s.byIdentity.get? entry.identity = some place ∧
    let result := rules.compare s entry r a judged
    (rules.step s r).2.diagnosis = result.1 ∧ (rules.step s r).2.uncoveredBytes = result.2.2

theorem comparedAt_of_matched {a : Asked} {place : Nat} {entry : CacheEntry}
    (hr : rules.Cacheable r a) (hlook : s.lookup (rules.identityOf r a) = some place)
    (hmatch : s.Matches (rules.identityOf r a) place entry) : rules.ComparedAt s r place := by
  refine ⟨a, entry, freshness entry.stored.response a.exchange
    (Instant.ofTimestamp a.exchange.timestamp) rules.policy.assumedLifetime, hmatch.listed, ?_⟩
  rw [step_of_cacheable hr, judge_of_matched hlook hmatch.present]
  exact ⟨rfl, rfl⟩

theorem exists_comparedAt (hs : s.Consistent) (r : Reply) :
    (rules.visit s r).decision.diagnosis.isFresh = false ∧
        (rules.visit s r).decision.uncoveredBytes = 0 ∨
      ∃ place, (rules.visit s r).place = some place ∧ rules.ComparedAt s r place := by
  have hmatched : ∀ {a place entry}, rules.Cacheable r a →
      s.lookup (rules.identityOf r a) = some place →
      s.Matches (rules.identityOf r a) place entry →
      ∃ place, (rules.visit s r).place = some place ∧ rules.ComparedAt s r place := by
    intro a place entry hr hlook hmatch
    have hidentity := (rules.outcome_step hs r).identity_of_cacheable hr
    exact ⟨place, Visit.place_of_found hidentity hlook, comparedAt_of_matched hr hlook hmatch⟩
  have ho := rules.outcome_step hs r
  rw [show (rules.visit s r).decision = (rules.step s r).2 from rfl]
  generalize rules.step s r = o at ho
  cases ho with
  | ignored hno hd => exact .inl ⟨by rcases hd with rfl | rfl | rfl <;> rfl, rfl⟩
  | evicted => exact .inl ⟨rfl, rfl⟩
  | revalidated => exact .inl ⟨rfl, rfl⟩
  | missed => exact .inl ⟨rfl, rfl⟩
  | changed hr hlook hmatch => exact .inr (hmatched hr hlook hmatch)
  | repeated hr hlook hmatch => exact .inr (hmatched hr hlook hmatch)

theorem visit_uncovered {visits : List Visit} (hs : s.Consistent)
    (hkept : ∀ i, s.HoldsAt rules.completeness i) (h : s.Accumulates rules.completeness visits)
    (hrange : ∀ range ∈ r.objectRange rules.completeness, range.Countable) :
    let v := rules.visit s r
    (v.decision.diagnosis.isFresh = true → ∃ place, v.place = some place ∧
      v.decision.uncoveredBytes =
        (r.missing rules.completeness (acceptedBy visits place)).card ∧
      (v.decision.diagnosis = .notExpiredDup ↔ v.decision.uncoveredBytes = 0)) ∧
    (v.decision.diagnosis.isFresh = false → v.decision.uncoveredBytes = 0) := by
  intro v
  rcases exists_comparedAt hs r with ⟨hfresh, hzero⟩ | ⟨place, hplace, hcompared⟩
  · exact ⟨fun he => absurd (hfresh.symm.trans he) Bool.false_ne_true, fun _ => hzero⟩
  · obtain ⟨a, entry, judged, hlisted, hd, huncovered⟩ := hcompared
    have hmissing : r.positions rules.completeness \
        RangeSet.positions ((s.ranges.get? entry.identity).getD []) =
          r.missing rules.completeness (acceptedBy visits place) := by
      ext x
      rw [Finset.mem_sdiff, h _ _ hlisted, Reply.missing, Finset.mem_filter]
      simp
    obtain ⟨hlacks, hzero⟩ :=
      rules.compare_uncovered a judged rfl (hkept entry.identity).apart hrange
    rw [hmissing, ← hd, ← huncovered] at hlacks
    rw [← hd, ← huncovered] at hzero
    refine ⟨fun hfresh => ⟨place, hplace, (hlacks hfresh).1, ?_⟩, hzero⟩
    rw [show v.decision.uncoveredBytes = _ from (hlacks hfresh).1]
    exact (hlacks hfresh).2

end CacheRules

/-- A fresh entry is found to lack the positions of a reply that no reply carries which it has taken
in since it was created or last changed. The reply is a repeat just when there are none. -/
theorem uncoveredBytes_eq_card_missing (rules : CacheRules)
    (ts : List (Session × ReadingLimits × Nat)) {n : Nat} {v : Visit}
    (hv : (rules.visits (Session.reassembleEach ts))[n]? = some v) :
    let earlier := (rules.visits (Session.reassembleEach ts)).take n
    (v.decision.diagnosis.isFresh = true → ∃ place, v.place = some place ∧
      v.decision.uncoveredBytes =
        (v.reply.missing rules.completeness (acceptedBy earlier place)).card ∧
      (v.decision.diagnosis = .notExpiredDup ↔ v.decision.uncoveredBytes = 0)) ∧
    (v.decision.diagnosis.isFresh = false → v.decision.uncoveredBytes = 0) := by
  rw [CacheRules.visits, CacheRules.getElem?_visitsFrom, Option.map_eq_some_iff] at hv
  obtain ⟨r, hr, rfl⟩ := hv
  have hrange := countable_of_mem_repliesOf (List.mem_of_getElem? hr) rules.completeness
  rw [CacheRules.visits, CacheRules.take_visitsFrom]
  exact CacheRules.visit_uncovered (rules.consistent_storeAfter _) (rules.holdsAt_storeAfter _)
    (rules.accumulates_visitsFrom _) hrange

/-- Of the second part the first byte was sent before. -/
theorem uncoveredBytes_eq_card_missing_of_parts :
    let rules : CacheRules := ⟨⟨0x7fffffffffffffff, ["GET"]⟩, .standard⟩
    let part := fun range body =>
      sampleReply "206 Partial Content" ("Content-Range: bytes " ++ range ++ "/4") body
    let s := sampleConversation [part "0-1" "ab", part "1-2" "bc"]
    let sessions := Session.reassembleEach [(s, ⟨.standard, 200⟩, 0)]
    ∃ v, (rules.visits sessions)[1]? = some v ∧
      v.decision.diagnosis = .notExpiredDupPartialHit ∧ v.decision.uncoveredBytes = 1 ∧
      (v.reply.missing rules.completeness
        (acceptedBy ((rules.visits sessions).take 1) 0)).card = 1 := by
  intro rules part s sessions
  let replies := unsortedReplies [s.listedAsFound ⟨.standard, 200⟩ 0]
  have hreplies : repliesOf sessions = replies :=
    repliesOf_reassembleEach (by decide) (by decide) (by decide +kernel) (by decide +kernel)
  let r := replies.get ⟨1, by decide +kernel⟩
  let a := r.asked.get (by decide +kernel)
  let store := rules.storeAfter (replies.take 1)
  let entry := store.entries.get ⟨0, by decide +kernel⟩
  have hcacheable : a.exchange.method?.any rules.policy.admits = true ∧
      (CacheDirectives.ofFields a.exchange.fields).noStore = false ∧
      (CacheDirectives.ofFields r.response.fields).noStore = false ∧
      r.response.status? = some 206 ∧ store.lookup (rules.identityOf r a) = some 0 := by
    decide +kernel
  obtain ⟨hmethod, hrequest, hreply, hstatus, hlook⟩ := hcacheable
  have hr : rules.Cacheable r a :=
    ⟨(Option.some_get _).symm, hmethod, hrequest, hreply, .inr hstatus⟩
  have hentry : store.entries[0]? = some entry := List.getElem?_eq_getElem _
  have hundated : (CacheDirectives.ofFields entry.stored.response.fields).noCache = false ∧
      (CacheDirectives.ofFields a.exchange.fields).noCache = false ∧
      Lifetimes.of entry.stored.response a.exchange = ⟨none, none, none, none, none, none⟩ ∧
      Span.ofSeconds rules.policy.assumedLifetime = .longest := by
    decide +kernel
  obtain ⟨hstored, hasked, hlifetimes, hassumed⟩ := hundated
  have hfresh := freshness_of_undated hstored hasked hlifetimes hassumed
  have hdecision : (rules.step store r).2.diagnosis = .notExpiredDupPartialHit ∧
      (rules.step store r).2.uncoveredBytes = 1 := by
    rw [CacheRules.step_of_cacheable hr, CacheRules.judge_of_matched hlook hentry, CacheRules.hit,
      hfresh]
    decide +kernel
  have hidentity : (rules.step store r).2.identity = some (rules.identityOf r a) :=
    (rules.outcome_step (rules.consistent_storeAfter _) r).identity_of_cacheable hr
  have hv : (rules.visits sessions)[1]? = some (rules.visit store r) := by
    rw [CacheRules.visits, hreplies, CacheRules.getElem?_visitsFrom]
    exact congrArg (Option.map _) (List.getElem?_eq_getElem _)
  have hplace : (rules.visit store r).place = some 0 := Visit.place_of_found hidentity hlook
  have hisFresh : (rules.visit store r).decision.diagnosis.isFresh = true :=
    congrArg Diagnosis.isFresh hdecision.1
  obtain ⟨place, hp, hcard, -⟩ := (uncoveredBytes_eq_card_missing rules _ hv).1 hisFresh
  obtain rfl : 0 = place := Option.some.inj (hplace.symm.trans hp)
  exact ⟨_, hv, hdecision.1, hdecision.2, hcard.symm.trans hdecision.2⟩

end HttpCapture
