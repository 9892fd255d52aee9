import HttpCapture.Proofs.LiveEntries

/-! What the decisions alone tell of the cache. A reply misses just when no living
entry is for its object. -/

namespace HttpCapture

namespace CacheStore

theorem listing_revalidate (s : CacheStore) (host path : String) :
    (s.revalidate host path).byIdentity = s.byIdentity ∧
      (s.revalidate host path).identities = s.identities := by
  unfold revalidate
  split
  · exact ⟨rfl, s.identities_modifyEntry _ fun _ => rfl⟩
  · exact ⟨rfl, rfl⟩

end CacheStore

namespace CacheRules

theorem isFor_of_asked {s : CacheStore} {r : Reply} {d : CacheDecision} {a : Asked}
    (ha : r.asked = some a) (host path : String) :
    (Visit.of s r d).isFor host path = (a.host == host && a.path == path) := by
  simp [Visit.isFor, Visit.of, ha]

theorem Outcome.tracks {rules : CacheRules} {visits : List Visit} {s : CacheStore} {r : Reply}
    {o : CacheStore × CacheDecision} (ho : rules.Outcome s r o) (hs : s.Consistent)
    (h : Tracks visits s) : Tracks (visits ++ [Visit.of s r o.2]) o.1 := by
  cases ho with
  | ignored hno hd =>
    refine h.append_of_not_names (fun _ => rfl) (fun i => ?_) rfl
    rw [if_neg]
    rcases hd with rfl | rfl | rfl <;> simp [Visit.evicts, Visit.of, Reply.rejected]
  | @evicted a hno ha =>
    refine h.append_of_not_names (fun _ => rfl) (fun i => ?_) rfl
    rw [CacheStore.get?_evict_byIdentity, Visit.evicts, isFor_of_asked ha]
    simp [Visit.of, Reply.rejected, ObjectIdentity.isAt, @eq_comm _ i.host, @eq_comm _ i.path]
  | @revalidated a hno ha hpath =>
    obtain ⟨hi, hids⟩ := s.listing_revalidate a.host a.path
    refine h.append_of_not_names (fun _ => rfl) (fun i => ?_) hids
    rw [hi, if_neg]
    simp [Visit.evicts, Visit.of, Reply.rejected]
  | @missed a hr hnone =>
    have hplace : (Visit.of s r (rules.miss s r a (rules.identityOf r a)).2).place =
        some s.entries.length := Visit.place_of_missed rfl hnone
    refine h.append_of_names hplace (.inl rfl) rfl (.of_miss hplace rfl rfl)
      (rules.relists_miss hs hnone) fun i hi => ?_
    rw [s.getElem?_identities_length] at hi
    cases hi
  | @changed a place entry judged hr hlook hmatch =>
    have hplace : (Visit.of s r ⟨r.ref, some a.ref, some (rules.identityOf r a), .objChanged,
        some judged, 0, 0⟩).place = some place := Visit.place_of_found rfl hlook
    have hlive := ((h.live _ _).mpr hmatch.listed).of_change hplace rfl rfl hmatch.loose
    exact h.append_of_names hplace (.inr rfl) rfl hlive (hs.relists_changed hmatch a.ref _ r)
      fun i hi => hs.loose_of_matches hmatch hi
  | @repeated a place entry judged d bytes uncovered hr hlook hmatch hd hbytes =>
    refine h.append_of_not_names (Visit.names_of_isRepeat hd) (fun i => ?_)
      (s.identities_repeated place r.ref bytes _ _ r)
    rw [(CacheStore.listing_merge _ _ _ _).1, if_neg]
    · rfl
    · cases d <;> simp_all [Visit.evicts, Visit.of, Diagnosis.isRepeat]

theorem tracks_visitsFrom (rules : CacheRules) (rs : List Reply) :
    Tracks (rules.visitsFrom .empty rs) (rules.storeAfter rs) := by
  induction rs using List.reverseRecOn with
  | nil => exact .empty
  | append_singleton rs r ih =>
    have hs := rules.consistent_storeAfter rs
    rw [storeAfter_append_singleton, visitsFrom_append_singleton]
    exact (rules.outcome_step hs r).tracks hs ih

theorem Outcome.identity_of_cacheable {rules : CacheRules} {s : CacheStore} {r : Reply}
    {o : CacheStore × CacheDecision} (ho : rules.Outcome s r o) {a : Asked}
    (hr : rules.Cacheable r a) :
    o.2.identity = some (rules.identityOf r a) := by
  have hsame : ∀ {b}, rules.Cacheable r b → b = a := fun hb =>
    Option.some.inj (hb.asked.symm.trans hr.asked)
  cases ho with
  | ignored hno => exact absurd hr (hno a)
  | evicted hno => exact absurd hr (hno a)
  | revalidated hno => exact absurd hr (hno a)
  | missed hb => rw [hsame hb, miss]
  | changed hb => rw [hsame hb]
  | repeated hb => rw [hsame hb]

theorem Outcome.cacheMiss_iff {rules : CacheRules} {s : CacheStore} {r : Reply}
    {o : CacheStore × CacheDecision} (ho : rules.Outcome s r o) {a : Asked}
    (hr : rules.Cacheable r a) :
    o.2.diagnosis = .cacheMiss ↔ s.lookup (rules.identityOf r a) = none := by
  have hsame : ∀ {b}, rules.Cacheable r b → b = a := fun hb =>
    Option.some.inj (hb.asked.symm.trans hr.asked)
  cases ho with
  | ignored hno => exact absurd hr (hno a)
  | evicted hno => exact absurd hr (hno a)
  | revalidated hno => exact absurd hr (hno a)
  | missed hb hnone =>
    obtain rfl := hsame hb
    exact ⟨fun _ => hnone, fun _ => rfl⟩
  | changed hb hlook =>
    obtain rfl := hsame hb
    simp [hlook]
  | repeated hb hlook hmatch hd =>
    obtain rfl := hsame hb
    rw [hlook]
    refine ⟨fun he => ?_, fun he => absurd he (by simp)⟩
    have hrepeat : Diagnosis.isRepeat .cacheMiss = true :=
      (congrArg Diagnosis.isRepeat he).symm.trans hd
    exact absurd hrepeat Bool.false_ne_true

theorem Outcome.listed_of_isHit {rules : CacheRules} {s : CacheStore} {r : Reply}
    {o : CacheStore × CacheDecision} (ho : rules.Outcome s r o) (hhit : o.2.diagnosis.isHit = true)
    {a : Asked} (ha : r.asked = some a) :
    ∃ i place, s.byIdentity.get? i = some place ∧ i.isAt a.host a.path = true := by
  have hmatched : ∀ {b place entry}, rules.Cacheable r b →
      s.Matches (rules.identityOf r b) place entry →
      ∃ i place, s.byIdentity.get? i = some place ∧ i.isAt a.host a.path = true := by
    intro b place entry hb hmatch
    obtain rfl := Option.some.inj (hb.asked.symm.trans ha)
    refine ⟨entry.identity, place, hmatch.listed, ?_⟩
    rw [← CacheStore.isAt_loose, hmatch.loose]
    exact ⟨rfl, rfl⟩
  cases ho with
  | ignored hno hd => rcases hd with rfl | rfl | rfl <;> exact absurd hhit Bool.false_ne_true
  | evicted => exact absurd hhit Bool.false_ne_true
  | revalidated hno hb hpath =>
    obtain rfl := Option.some.inj (hb.symm.trans ha)
    obtain ⟨⟨i, place⟩, hmem, hat⟩ := List.any_eq_true.mp hpath
    obtain ⟨other, hget⟩ := Table.exists_get?_of_mem hmem
    exact ⟨i, other, hget, hat⟩
  | missed => exact absurd hhit (by simp [miss, Diagnosis.isHit, Diagnosis.isRepeat])
  | changed hb hlook hmatch => exact hmatched hb hmatch
  | repeated hb hlook hmatch => exact hmatched hb hmatch

theorem visits_getElem? {rules : CacheRules} {sessions : List Session} {n : Nat} {v : Visit}
    (hv : (rules.visits sessions)[n]? = some v) :
    ∃ s r, v = rules.visit s r ∧ s.Consistent ∧ Tracks ((rules.visits sessions).take n) s := by
  rw [visits, getElem?_visitsFrom, Option.map_eq_some_iff] at hv
  obtain ⟨r, -, rfl⟩ := hv
  refine ⟨_, r, rfl, rules.consistent_storeAfter ((repliesOf sessions).take n), ?_⟩
  rw [visits, take_visitsFrom]
  exact rules.tracks_visitsFrom _

end CacheRules

theorem Tracks.lookup_eq_none_iff {visits : List Visit} {s : CacheStore} (h : Tracks visits s)
    (hs : s.Consistent) (i : ObjectIdentity) :
    s.lookup i = none ↔ (∀ place, ¬Live visits place i) ∧
      (i.validator = none → ∀ place j, j.loose = i.loose → ¬Live visits place j) := by
  have hnone : ∀ j, s.byIdentity.get? j = none ↔ ∀ place, ¬Live visits place j := by
    intro j
    rw [Option.eq_none_iff_forall_ne_some]
    exact forall_congr' fun place => not_congr (h.live j place).symm
  rw [hs.lookup_eq_none_iff, hnone]
  simp only [hnone]
  constructor
  · rintro ⟨hi, hloose⟩
    exact ⟨hi, fun hv place j hj => hloose hv j hj place⟩
  · rintro ⟨hi, hloose⟩
    exact ⟨hi, fun hv j hj place => hloose hv place j hj⟩

theorem Tracks.exists_live_of_ne_miss {visits : List Visit} {rules : CacheRules} {s : CacheStore}
    (h : Tracks visits s) (hs : s.Consistent) {r : Reply} {a : Asked} (hr : rules.Cacheable r a)
    (hhit : (rules.visit s r).decision.diagnosis ≠ .cacheMiss) :
    ∃ place j, (rules.visit s r).place = some place ∧ Live visits place j ∧
      (j = rules.identityOf r a ∨
        (rules.identityOf r a).validator = none ∧ j.loose = (rules.identityOf r a).loose) := by
  have ho := rules.outcome_step hs r
  obtain ⟨place, hlook⟩ := Option.ne_none_iff_exists'.mp (mt (ho.cacheMiss_iff hr).mpr hhit)
  obtain ⟨entry, hmatch⟩ := hs.matches_of_lookup hlook
  refine ⟨place, entry.identity, ?_, (h.live _ _).mpr hmatch.listed, ?_⟩
  · simp [CacheRules.visit, Visit.of, ho.identity_of_cacheable hr, hlook]
  · rcases hmatch.tag with htag | ⟨hvalidator, -⟩
    · exact .inl htag
    · exact .inr ⟨hvalidator, hmatch.loose⟩

/-- Behind a visit that evicts, what is listed at the path was created by a new miss. -/
theorem Tracks.exists_miss {visits : List Visit} {s : CacheStore} (h : Tracks visits s)
    (hs : s.Consistent) {m : Nat} {e : Visit} {host path : String} (he : visits[m]? = some e)
    (hevicts : e.evicts host path = true) {i : ObjectIdentity} {place : Nat}
    (hi : s.byIdentity.get? i = some place) (hat : i.isAt host path = true) :
    ∃ k w j, m < k ∧ visits[k]? = some w ∧ w.decision.diagnosis = .cacheMiss ∧
      w.decision.identity = some j ∧ j.isAt host path = true := by
  obtain ⟨rfl, rfl⟩ := (CacheStore.isAt_loose i host path).mpr hat
  obtain ⟨before, w, after, rfl, hplace, hmiss, hafter⟩ := ((h.live i place).mpr hi).created
  have hnames : w.names place = true := by simp [Visit.names, hplace, hmiss]
  obtain ⟨j, i', hj, hi', hloose⟩ := h.named w (by simp) place hnames
  obtain rfl := Option.some.inj ((hs.listed hi).symm.trans hi')
  refine ⟨before.length, w, j, ?_, by simp, hmiss, hj, ?_⟩
  · refine Nat.lt_of_not_le fun hle => ?_
    rw [List.getElem?_append_right hle] at he
    rcases Nat.eq_or_lt_of_le hle with heq | hlt
    · obtain rfl : w = e := by simpa [heq] using he
      simp [Visit.evicts, hmiss] at hevicts
    · have hmem : e ∈ after := by
        rw [List.getElem?_cons, if_neg (by omega)] at he
        exact List.mem_of_getElem? he
      exact absurd (hevicts.symm.trans (hafter e hmem)) (by simp)
  · rw [← CacheStore.isAt_loose, hloose]
    exact ⟨rfl, rfl⟩

def Exchange.sampleWhole (control : String) (tag : Option String) : Exchange :=
  { Exchange.start 0 .downlink (.response "HTTP/1.1" 200 "") with
    fields := ⟨"cache-control", utf8Bytes control⟩ ::
      (tag.map fun t => ⟨"etag", utf8Bytes t⟩).toList }

def sampleHistory : List Session :=
  [Session.ofReplies
    [(.sampleWhole "no-cache" (some "a"), [1]), (.sampleWhole "no-cache" none, [1]),
      (.sampleWhole "no-store" none, [1]), (.sampleWhole "no-cache" none, [1])]]

/-- A reply whose object could be kept misses just when no living entry has its identity or, if it
has no entity tag, its host, path and length; otherwise it is matched with such an entry. So once
something at a path may not be cached, nothing there is a hit before a new miss. -/
theorem cacheMiss_iff_no_live (rules : CacheRules) (sessions : List Session) :
    let visits := rules.visits sessions
    visits.map Visit.reply = repliesOf sessions ∧
    visits.map Visit.decision = (rules.report sessions).decisions ∧
    (∀ (n : Nat) (v : Visit) (a : Asked), visits[n]? = some v → rules.Cacheable v.reply a →
      let i := rules.identityOf v.reply a
      (v.decision.diagnosis = .cacheMiss ↔
        (∀ place, ¬Live (visits.take n) place i) ∧
          (i.validator = none → ∀ place j, j.loose = i.loose → ¬Live (visits.take n) place j)) ∧
      (v.decision.diagnosis ≠ .cacheMiss → ∃ place j, v.place = some place ∧
        Live (visits.take n) place j ∧ (j = i ∨ i.validator = none ∧ j.loose = i.loose))) ∧
    (∀ (m n : Nat) (e v : Visit) (host path : String), m < n → visits[m]? = some e →
      e.evicts host path = true → visits[n]? = some v → v.isFor host path = true →
      v.decision.diagnosis.isHit = true →
      ∃ (k : Nat) (w : Visit) (j : ObjectIdentity), m < k ∧ k < n ∧ visits[k]? = some w ∧
        w.decision.diagnosis = .cacheMiss ∧ w.decision.identity = some j ∧
        j.isAt host path = true) := by
  intro visits
  refine ⟨rules.map_reply_visits _, rules.map_decision_visits _, ?_, ?_⟩
  · intro n v a hv hr i
    obtain ⟨s, r, rfl, hs, htracks⟩ := CacheRules.visits_getElem? hv
    have ho := rules.outcome_step hs r
    exact ⟨(ho.cacheMiss_iff hr).trans (htracks.lookup_eq_none_iff hs i),
      fun hhit => htracks.exists_live_of_ne_miss hs hr hhit⟩
  · intro m n e v host path hmn he hevicts hv hfor hhit
    obtain ⟨s, r, rfl, hs, htracks⟩ := CacheRules.visits_getElem? hv
    obtain ⟨a, ha, hat⟩ := (Option.any_eq_true _ _).mp hfor
    obtain ⟨rfl, rfl⟩ : a.host = host ∧ a.path = path := by simpa using hat
    obtain ⟨i, place, hlisted, hi⟩ := (rules.outcome_step hs r).listed_of_isHit hhit ha
    have he' : (visits.take n)[m]? = some e := by rw [List.getElem?_take_of_lt hmn, he]
    obtain ⟨k, w, j, hmk, hw, hmiss, hj, hjat⟩ := htracks.exists_miss hs he' hevicts hlisted hi
    have hkn : k < n := by
      have := (List.getElem?_eq_some_iff.mp hw).1
      rw [List.length_take] at this
      omega
    rw [List.getElem?_take_of_lt hkn] at hw
    exact ⟨k, w, j, hmk, hkn, hw, hmiss, hj, hjat⟩

/-- The second reply matches the first, which has an entity tag; the third evicts it, so the fourth
misses. -/
theorem cacheMiss_iff_no_live_of_eviction :
    let rules : CacheRules := ⟨.standard, .standard⟩
    let visits := rules.visits sampleHistory
    (rules.report sampleHistory).decisions.map (·.diagnosis) =
      [.cacheMiss, .objNotChangedDupClient, .notCacheable, .cacheMiss] ∧
    (∃ v a, visits[1]? = some v ∧ rules.Cacheable v.reply a ∧ ∃ place j,
      Live (visits.take 1) place j ∧ j.loose = (rules.identityOf v.reply a).loose) ∧
    ∃ v a, visits[3]? = some v ∧ rules.Cacheable v.reply a ∧
      ∀ place, ¬Live (visits.take 3) place (rules.identityOf v.reply a) := by
  intro rules visits
  obtain ⟨hreplies, hdecisions, hlive, -⟩ := cacheMiss_iff_no_live rules sampleHistory
  have hsorted : repliesOf sampleHistory = unsortedReplies sampleHistory :=
    repliesOf_of_pairwise (by decide +kernel)
  have hdiagnoses : (rules.report sampleHistory).decisions.map (·.diagnosis) =
      [.cacheMiss, .objNotChangedDupClient, .notCacheable, .cacheMiss] := by
    rw [(rules.tallies_report sampleHistory).decisions, hsorted]
    decide +kernel
  have hvisit : ∀ (n : Nat) (r : Reply) (a : Asked) (d : Diagnosis),
      (repliesOf sampleHistory)[n]? = some r → rules.Cacheable r a →
      ((rules.report sampleHistory).decisions.map (·.diagnosis))[n]? = some d →
      ∃ v : Visit, visits[n]? = some v ∧ rules.Cacheable v.reply a ∧ v.decision.diagnosis = d := by
    intro n r a d hr hcacheable hd
    rw [← hreplies, List.getElem?_map, Option.map_eq_some_iff] at hr
    obtain ⟨v, hv, rfl⟩ := hr
    refine ⟨v, hv, hcacheable, ?_⟩
    rw [← hdecisions, List.map_map, List.getElem?_map, hv] at hd
    exact Option.some.inj hd
  rw [hsorted, hdiagnoses] at hvisit
  obtain ⟨v, hv, hr, hd⟩ := hvisit 1 _ _ _ rfl
    ⟨rfl, by decide +kernel, by decide +kernel, by decide +kernel, by decide +kernel⟩ rfl
  obtain ⟨w, hw, hr', hd'⟩ := hvisit 3 _ _ _ rfl
    ⟨rfl, by decide +kernel, by decide +kernel, by decide +kernel, by decide +kernel⟩ rfl
  refine ⟨hdiagnoses, ⟨v, _, hv, hr, ?_⟩, w, _, hw, hr', ?_⟩
  · obtain ⟨place, j, -, hj, hmatch⟩ := (hlive 1 v _ hv hr).2 (by simp [hd])
    rcases hmatch with rfl | ⟨-, hloose⟩
    · exact ⟨place, _, hj, rfl⟩
    · exact ⟨place, j, hj, hloose⟩
  · exact ((hlive 3 w _ hw hr').1.mp hd').1

end HttpCapture
