import HttpCapture.Proofs.CacheHoldings

/-! Objects at one path do not depend on what is asked for elsewhere. A reply to a request for the
path is judged alike by two caches that agree there, and leaves them in agreement; other replies,
and those that leave the cache as it is, change nothing there. -/

namespace HttpCapture

/-- The cache holds what it held before. -/
def Diagnosis.isIdle : Diagnosis → Bool
  | .requestNotFound | .invalidRequest | .invalidResponse | .objNotChanged304 => true
  | _ => false

namespace CacheRules

variable {rules : CacheRules} {s t : CacheStore} {r : Reply} {a : Asked} {host path : String}

theorem identityOf_isAt (rules : CacheRules) (r : Reply) (a : Asked) :
    (rules.identityOf r a).isAt a.host a.path = true :=
  (CacheStore.isAt_loose _ _ _).mp ⟨rfl, rfl⟩

/-- A reply to a request for another path, or one that leaves the cache as it is,
changes nothing at a path. -/
theorem Outcome.agreesAt {o : CacheStore × CacheDecision} (ho : rules.Outcome s r o)
    (hs : s.Consistent) (hv : (Visit.of s r o.2).isFor host path = false ∨
      o.2.diagnosis.isIdle = true) : CacheStore.AgreesAt host path o.1 s := by
  have helsewhere : ∀ {a}, r.asked = some a → o.2.diagnosis.isIdle = false →
      ¬(host = a.host ∧ path = a.path) := by
    rintro a ha hd ⟨rfl, rfl⟩
    rcases hv with hv | hidle
    · rw [isFor_of_asked ha] at hv
      simp at hv
    · exact Bool.false_ne_true (hd.symm.trans hidle)
  have hother : ∀ {a}, r.asked = some a → o.2.diagnosis.isIdle = false →
      (rules.identityOf r a).isAt host path = false := by
    intro a ha hd
    rw [Bool.eq_false_iff, Ne, ← CacheStore.isAt_loose]
    rintro ⟨hhost, hpath⟩
    exact helsewhere ha hd ⟨hhost.symm, hpath.symm⟩
  cases ho with
  | ignored => exact .refl s
  | evicted hno ha => exact .of_evict s (helsewhere ha rfl)
  | revalidated => exact .of_revalidate s _ _
  | missed hr hnone =>
    have hi := hother hr.asked rfl
    exact (CacheStore.AgreesAt.of_merge _ hi _ _).trans (.of_insert hs hi)
  | @changed a place entry judged hr hlook hmatch =>
    have hi := hother hr.asked rfl
    have hreplaced :=
      CacheStore.AgreesAt.of_replace (hs.countHit place) hmatch.listed hmatch.loose hi a.ref r
    exact ((CacheStore.AgreesAt.of_merge _ hi _ _).trans hreplaced).trans
      (.of_countHit s place)
  | @repeated a place entry judged d bytes uncovered hr hlook hmatch hd hbytes =>
    have hidle : d.isIdle = false := by cases d <;> first | rfl | cases hd
    have hi : entry.identity.isAt host path = false := by
      rw [Bool.eq_false_iff, Ne, ← CacheStore.isAt_loose, hmatch.loose, CacheStore.isAt_loose,
        hother hr.asked hidle]
      exact Bool.false_ne_true
    exact (CacheStore.AgreesAt.of_merge _ hi _ _).trans
      ((CacheStore.AgreesAt.of_addDuplicate _ place r.ref bytes).trans (.of_countHit s place))

theorem compare_congr {e f : CacheEntry} (hidentity : e.identity = f.identity)
    (hstored : e.stored = f.stored) (h : s.holding f.identity = t.holding f.identity) (r : Reply)
    (a : Asked) (judged : Freshness) :
    rules.compare s e r a judged = rules.compare t f r a judged := by
  have hpieces : s.pieces.get? f.identity = t.pieces.get? f.identity := congrArg Holding.pieces h
  have hranges : s.ranges.get? f.identity = t.ranges.get? f.identity := congrArg Holding.ranges h
  unfold compare
  rw [hidentity, hstored, hpieces, hranges]

theorem hit_agrees (hs : s.Consistent) (ht : t.Consistent)
    (h : CacheStore.AgreesAt a.host a.path s t) {p q : Nat} {e f : CacheEntry}
    (hp : s.Matches (rules.identityOf r a) p e) (hq : t.Matches (rules.identityOf r a) q f)
    (hidentity : e.identity = f.identity) (hstored : e.stored = f.stored) :
    (rules.hit s p e r a (rules.identityOf r a)).2 =
      (rules.hit t q f r a (rules.identityOf r a)).2 ∧
      CacheStore.AgreesAt a.host a.path (rules.hit s p e r a (rules.identityOf r a)).1
        (rules.hit t q f r a (rules.identityOf r a)).1 := by
  have hcounted : CacheStore.AgreesAt a.host a.path (s.countHit p) (t.countHit q) :=
    (CacheStore.AgreesAt.of_countHit s p).trans (h.trans (CacheStore.AgreesAt.of_countHit t q).symm)
  have hi := rules.identityOf_isAt r a
  have hf : f.identity.isAt a.host a.path = true := by
    rwa [← CacheStore.isAt_loose, hq.loose, CacheStore.isAt_loose]
  have hcompare : ∀ judged, rules.compare (s.countHit p) e r a judged =
      rules.compare (t.countHit q) f r a judged :=
    compare_congr hidentity hstored (hcounted.holding _ hf) r a
  have hlisted : t.byIdentity.get? f.identity = some q := hq.listed
  have hlisted' : s.byIdentity.get? f.identity = some p := hidentity ▸ hp.listed
  unfold hit
  dsimp only
  rw [show (s.modifyEntry p fun e => { e with hits := e.hits + 1 }) = s.countHit p from rfl,
    show (t.modifyEntry q fun e => { e with hits := e.hits + 1 }) = t.countHit q from rfl,
    hstored, hcompare, hidentity]
  generalize rules.compare (t.countHit q) f r a _ = result
  obtain ⟨d, duplicate, uncovered⟩ := result
  refine ⟨rfl, ?_⟩
  dsimp only
  split
  · have hreplaced :=
      hcounted.replace (hs.countHit p) (ht.countHit q) hlisted' hlisted hq.loose a.ref r
    exact hreplaced.merge hi _ _
  · have hadded := (CacheStore.AgreesAt.of_addDuplicate (s.countHit p) p r.ref duplicate).trans
      (hcounted.trans (CacheStore.AgreesAt.of_addDuplicate (t.countHit q) q r.ref duplicate).symm)
    exact hadded.merge hf _ _

theorem judge_of_unmatched (hlook : s.lookup (rules.identityOf r a) = none) :
    rules.judge s r a a.path = rules.miss s r a (rules.identityOf r a) := by
  unfold judge
  dsimp only
  rw [show r.identity rules.completeness a.host a.path = rules.identityOf r a from rfl, hlook]
  rfl

theorem judge_agrees (hs : s.Consistent) (ht : t.Consistent)
    (h : CacheStore.AgreesAt a.host a.path s t) :
    (rules.judge s r a a.path).2 = (rules.judge t r a a.path).2 ∧
      CacheStore.AgreesAt a.host a.path (rules.judge s r a a.path).1
        (rules.judge t r a a.path).1 := by
  have hi := rules.identityOf_isAt r a
  have hfound := h.found_eq hi
  cases hj : s.found (rules.identityOf r a) with
  | none =>
    have hlook : s.lookup (rules.identityOf r a) = none := by
      rw [hs.lookup_eq, hj, Option.bind_none]
    have hlook' : t.lookup (rules.identityOf r a) = none := by
      rw [ht.lookup_eq, ← hfound, hj, Option.bind_none]
    rw [judge_of_unmatched hlook, judge_of_unmatched hlook']
    exact ⟨rfl, (h.insert hs ht rfl rfl).merge hi _ _⟩
  | some j =>
    obtain ⟨p, e, hlook, hmatch, he, hstored⟩ := hs.matches_of_found hj
    obtain ⟨q, f, hlook', hmatch', hf, hstored'⟩ := ht.matches_of_found (hfound.symm.trans hj)
    have hjat : j.isAt a.host a.path = true := by
      rw [← he, ← CacheStore.isAt_loose, hmatch.loose]
      exact ⟨rfl, rfl⟩
    have hsame : e.stored = f.stored := by
      rw [h.holding j hjat, hstored'] at hstored
      exact (Option.some.inj hstored).symm
    rw [judge_of_matched hlook hmatch.present, judge_of_matched hlook' hmatch'.present]
    exact hit_agrees hs ht h hmatch hmatch' (he.trans hf.symm) hsame

/-- A reply to a request for a path is judged alike by caches that agree there. -/
theorem step_agrees (hs : s.Consistent) (ht : t.Consistent) (ha : r.asked = some a)
    (h : CacheStore.AgreesAt a.host a.path s t) : (rules.step s r).2 = (rules.step t r).2 ∧
      CacheStore.AgreesAt a.host a.path (rules.step s r).1 (rules.step t r).1 := by
  unfold step
  rw [ha]
  dsimp only
  rw [show a.exchange.path?.getD "/" = a.path from rfl, h.hasPath_eq hs ht]
  split
  · exact ⟨rfl, h⟩
  · split
    · exact ⟨rfl, h.evict⟩
    · split
      · split
        · exact ⟨rfl, (CacheStore.AgreesAt.of_revalidate s _ _).trans
            (h.trans (CacheStore.AgreesAt.of_revalidate t _ _).symm)⟩
        · exact ⟨rfl, h⟩
      · exact judge_agrees hs ht h
      · exact judge_agrees hs ht h
      · exact ⟨rfl, h⟩

end CacheRules

/-- Some visits are left out that are for other paths or left the cache as it was. -/
inductive Thinned (host path : String) : List Visit → List Visit → Prop
  | nil : Thinned host path [] []
  | keep (v : Visit) {vs kept : List Visit} (h : Thinned host path vs kept) :
      Thinned host path (v :: vs) (v :: kept)
  | drop {v : Visit} {vs kept : List Visit}
      (hv : v.isFor host path = false ∨ v.decision.diagnosis.isIdle = true)
      (h : Thinned host path vs kept) : Thinned host path (v :: vs) kept

theorem thinned_filter (host path : String) (vs : List Visit) :
    Thinned host path vs
      (vs.filter fun v => v.isFor host path && !v.decision.diagnosis.isIdle) := by
  induction vs with
  | nil => exact .nil
  | cons v vs ih =>
    rw [List.filter_cons]
    split
    · exact .keep v ih
    · next hv => exact .drop (by simpa [Classical.or_iff_not_imp_left] using hv) ih

namespace CacheRules

variable {rules : CacheRules} {s t : CacheStore} {host path : String}

/-- One reply in both of two runs that agree at a path. -/
theorem step_agreesAt (hs : s.Consistent) (ht : t.Consistent) (h : s.AgreesAt host path t)
    (r : Reply) :
    ((rules.visit s r).isFor host path = true → (rules.step t r).2 = (rules.step s r).2) ∧
      CacheStore.AgreesAt host path (rules.step s r).1 (rules.step t r).1 := by
  cases hfor : (rules.visit s r).isFor host path with
  | true =>
    obtain ⟨a, ha, hat⟩ := (Option.any_eq_true _ _).mp hfor
    obtain ⟨rfl, rfl⟩ : a.host = host ∧ a.path = path := by simpa using hat
    obtain ⟨hd, hagrees⟩ := step_agrees hs ht ha h
    exact ⟨fun _ => hd.symm, hagrees⟩
  | false =>
    have hleft := (rules.outcome_step hs r).agreesAt hs (.inl hfor)
    have hright := (rules.outcome_step ht r).agreesAt ht (.inl hfor)
    exact ⟨fun he => absurd he Bool.false_ne_true, hleft.trans (h.trans hright.symm)⟩

theorem forall₂_of_thinned {rs : List Reply} {kept : List Visit}
    (hthinned : Thinned host path (rules.visitsFrom s rs) kept) (hs : s.Consistent)
    (ht : t.Consistent) (h : CacheStore.AgreesAt host path s t) :
    List.Forall₂ (fun v d => v.isFor host path = true → d = v.decision) kept
      (rules.replay t (kept.map (·.reply))).2 := by
  induction rs generalizing s t kept with
  | nil =>
    cases hthinned
    exact .nil
  | cons r rs ih =>
    have ho := rules.outcome_step hs r
    cases hthinned with
    | keep _ hrest =>
      obtain ⟨hd, hagrees⟩ := step_agreesAt hs ht h r
      exact .cons hd (ih hrest (ho.consistent hs) ((rules.outcome_step ht r).consistent ht) hagrees)
    | drop hv hrest =>
      exact ih hrest (ho.consistent hs) ht ((ho.agreesAt hs hv).trans h)

end CacheRules

/-- Replies to requests for other paths, and those that leave the cache as it is, may be left out
without any effect on what is decided about the others at a path. -/
theorem decisions_of_thinned (rules : CacheRules) (rs : List Reply) {host path : String}
    {kept : List Visit} (h : Thinned host path (rules.visitsFrom .empty rs) kept) :
    List.Forall₂ (fun v d => v.isFor host path = true → d = v.decision) kept
      (rules.replay .empty (kept.map (·.reply))).2 :=
  CacheRules.forall₂_of_thinned h CacheStore.consistent_empty CacheStore.consistent_empty (.refl _)

/-- A reply from another host and a revalidation come between two replies for one object. -/
theorem decisions_of_thinned_of_two_hosts :
    let rules : CacheRules := ⟨.standard, .standard⟩
    let reply := (Exchange.sampleWhole "no-cache" none, ([1] : Bytes))
    let notModified := (Exchange.start 0 .downlink (.response "HTTP/1.1" 304 ""), ([] : Bytes))
    let first := { Session.ofReplies [reply, notModified] with remoteHost := some "a" }
    let second := { Session.ofReplies [reply] with remoteHost := some "b" }
    let rs :=
      unsortedReplies [first, second, { Session.ofReplies [reply] with remoteHost := some "a" }]
    let visits := rules.visitsFrom .empty rs
    let kept := visits.filter fun v => v.isFor "a" "/" && !v.decision.diagnosis.isIdle
    visits.map (·.decision.diagnosis) =
        [.cacheMiss, .objNotChanged304, .cacheMiss, .objNotChangedDupClient] ∧
      kept.map (·.decision.diagnosis) = [.cacheMiss, .objNotChangedDupClient] ∧
      (rules.replay .empty (kept.map (·.reply))).2 = kept.map (·.decision) := by
  intro rules reply notModified first second rs visits kept
  have hthinned := thinned_filter "a" "/" visits
  have hdecisions := decisions_of_thinned rules rs hthinned
  refine ⟨by decide +kernel, by decide +kernel, ?_⟩
  have hfor : ∀ v ∈ kept, v.isFor "a" "/" = true := by
    intro v hv
    have hkept := (List.mem_filter.mp hv).2
    rw [Bool.and_eq_true] at hkept
    exact hkept.1
  obtain ⟨hlength, hsame⟩ := List.forall₂_iff_zip.mp hdecisions
  have hmap : List.Forall₂ (· = ·) (kept.map (·.decision))
      (rules.replay .empty (kept.map (·.reply))).2 := by
    refine List.forall₂_map_left_iff.mpr (List.forall₂_iff_zip.mpr ⟨hlength, fun hmem => ?_⟩)
    exact (hsame hmem (hfor _ (List.of_mem_zip hmem).1)).symm
  exact (List.forall₂_eq_eq_eq ▸ hmap).symm

end HttpCapture
