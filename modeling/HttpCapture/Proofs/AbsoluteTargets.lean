import HttpCapture.Proofs.AddressRoundTrip
import HttpCapture.Proofs.CacheHistory
import HttpCapture.Proofs.ReplyOrder

/-! Targets that name scheme and authority. What follows these is the path of the object, with a
slash before it where there is none. The cut is made at the first slash, which is the right one
unless the query comes first. Replies that share a cache entry have asked for the same path. -/

namespace HttpCapture

/-- A target with scheme and authority, and what follows them. -/
structure AbsoluteForm (uri target : List Char) : Prop where
  split : ∃ scheme ∈ ["http://", "https://"], ∃ authority : List Char,
    (∀ c ∈ authority, c ∉ ['/', '?', '#']) ∧ uri = scheme.toList ++ (authority ++ target)
  follows : target = [] ∨ target.head? = some '/' ∨ target.head? = some '?'

/-- The target that is asked for when scheme and authority are left out. -/
def rooted (target : List Char) : List Char :=
  if target.head? = some '/' then target else '/' :: target

namespace Exchange

theorem targetPath_of_scheme {scheme : String} (hscheme : scheme ∈ ["http://", "https://"])
    (rest : List Char) : targetPath (scheme.toList ++ rest) =
      if rest.contains '/' then rest.dropWhile (· != '/') else ['/'] := by
  have hafter : (after? "http://".toList (scheme.toList ++ rest) <|>
      after? "https://".toList (scheme.toList ++ rest)) = some rest := by
    rcases List.mem_pair.mp hscheme with rfl | rfl
    · rw [after?_append]
      rfl
    · rw [after?_append "https://".toList]
      rfl
  rw [targetPath, hafter]

theorem targetPath_of_absolute {uri target : List Char} (h : AbsoluteForm uri target) :
    targetPath uri = if target.contains '/' then target.dropWhile (· != '/') else ['/'] := by
  obtain ⟨scheme, hscheme, authority, hauthority, rfl⟩ := h.split
  have hfree : ∀ c ∈ authority, c ≠ '/' := fun c hc hslash => hauthority c hc (by simp [hslash])
  have hcontains : (authority ++ target).contains '/' = target.contains '/' := by
    rw [List.contains_append, Bool.or_eq_right_iff_imp]
    intro hmem
    exact absurd rfl (hfree '/' (List.contains_iff_mem.mp hmem))
  rw [targetPath_of_scheme hscheme, hcontains, List.dropWhile_append_of_pos]
  exact fun c hc => by simpa using hfree c hc

/-- The path is the target that follows, unless the query comes before any slash. -/
theorem targetPath_eq_rooted_iff {uri target : List Char} (h : AbsoluteForm uri target) :
    targetPath uri = rooted target ↔ target.head? ≠ some '?' := by
  rw [targetPath_of_absolute h]
  cases target with
  | nil => simp [rooted]
  | cons c rest =>
    rcases h.follows with hnil | hslash | hquery
    · exact absurd hnil (by simp)
    · obtain rfl : c = '/' := by simpa using hslash
      simp [rooted]
    · obtain rfl : c = '?' := by simpa using hquery
      -- What is left of the query is shorter than the query with a slash before it.
      have hshort : (rest.dropWhile (· != '/')).length ≤ rest.length :=
        (List.dropWhile_suffix _).length_le
      refine ⟨fun heq => ?_, fun hne => absurd rfl hne⟩
      have hlength := congrArg List.length heq
      split at hlength
      · simp [rooted] at hlength
        omega
      · simp [rooted] at hlength

end Exchange

/-- The request asks, in absolute form, for what follows scheme and authority. -/
def Asked.AsksFor (a : Asked) (target : List Char) : Prop :=
  ∃ uri, a.exchange.uri? = some uri ∧ AbsoluteForm uri.toList target

theorem Asked.AsksFor.path_toList {a : Asked} {target : List Char} (h : a.AsksFor target)
    (hquery : target.head? ≠ some '?') : a.path.toList = rooted target := by
  obtain ⟨uri, huri, hform⟩ := h
  rw [Asked.path, Exchange.path?, huri, Option.map_some, Option.getD_some, String.toList_ofList]
  exact (Exchange.targetPath_eq_rooted_iff hform).mpr hquery

namespace CacheStore

/-- What stays the same of the identity of each entry. -/
def looseIdentities (s : CacheStore) : List LooseIdentity := s.identities.map (·.loose)

/-- Every visit with a place is about an object that, but for its entity tag, is the
one of the entry there. -/
def KeepsPlaces (rules : CacheRules) (s : CacheStore) (visits : List Visit) : Prop :=
  ∀ v ∈ visits, ∀ place, v.place = some place → ∃ a, v.reply.asked = some a ∧
    s.looseIdentities[place]? = some (rules.identityOf v.reply a).loose

theorem looseIdentities_congr {s t : CacheStore} (h : t.identities = s.identities) :
    t.looseIdentities = s.looseIdentities := by
  rw [looseIdentities, h, looseIdentities]

theorem Relists.looseIdentities {s t : CacheStore} {place : Nat} {new : ObjectIdentity}
    (h : s.Relists t place new)
    (hloose : ∀ i, s.identities[place]? = some i → i.loose = new.loose) :
    (∀ (p : Nat) (l : LooseIdentity), s.looseIdentities[p]? = some l →
        t.looseIdentities[p]? = some l) ∧
      t.looseIdentities[place]? = some new.loose := by
  have hnew : ∀ p, t.looseIdentities[p]? =
      if p = place then some new.loose else s.looseIdentities[p]? := by
    intro p
    rw [CacheStore.looseIdentities, List.getElem?_map, h.identities]
    split
    · rfl
    · rw [CacheStore.looseIdentities, List.getElem?_map]
  refine ⟨fun p l hl => ?_, by rw [hnew, if_pos rfl]⟩
  rw [hnew]
  split
  · -- The entry at the place is listed anew, with another entity tag at most.
    next hp =>
    rw [hp, CacheStore.looseIdentities, List.getElem?_map, Option.map_eq_some_iff] at hl
    obtain ⟨i, hi, rfl⟩ := hl
    rw [hloose i hi]
  · exact hl

end CacheStore

namespace CacheRules

variable {rules : CacheRules} {s : CacheStore} {r : Reply} {o : CacheStore × CacheDecision}

/-- A reply leaves the entries their objects, and the entry that it is matched with has its own. -/
theorem Outcome.looseIdentities (ho : rules.Outcome s r o) (hs : s.Consistent) :
    (∀ (p : Nat) (l : LooseIdentity), s.looseIdentities[p]? = some l →
        o.1.looseIdentities[p]? = some l) ∧
      ∀ place, (Visit.of s r o.2).place = some place → ∃ a, r.asked = some a ∧
        o.1.looseIdentities[place]? = some (rules.identityOf r a).loose := by
  cases ho with
  | ignored =>
    exact ⟨fun _ _ hl => hl, fun _ hplace => absurd hplace (by simp [Visit.of, Reply.rejected])⟩
  | evicted =>
    exact ⟨fun _ _ hl => hl, fun _ hplace => absurd hplace (by simp [Visit.of, Reply.rejected])⟩
  | @revalidated a =>
    refine ⟨?_, fun _ hplace => absurd hplace (by simp [Visit.of, Reply.rejected])⟩
    rw [CacheStore.looseIdentities_congr (s.listing_revalidate a.host a.path).2]
    exact fun _ _ hl => hl
  | @missed a hr hnone =>
    obtain ⟨hkept, hnew⟩ := (rules.relists_miss hs hnone).looseIdentities fun i hi => by
      rw [s.getElem?_identities_length] at hi
      cases hi
    refine ⟨hkept, fun place hplace => ⟨a, hr.asked, ?_⟩⟩
    obtain rfl := Option.some.inj ((Visit.place_of_missed rfl hnone).symm.trans hplace)
    exact hnew
  | @changed a place entry judged hr hlook hmatch =>
    obtain ⟨hkept, hnew⟩ := (hs.relists_changed hmatch a.ref (r.objectRange rules.completeness) r
      ).looseIdentities fun i hi => hs.loose_of_matches hmatch hi
    refine ⟨hkept, fun p hplace => ⟨a, hr.asked, ?_⟩⟩
    obtain rfl := Option.some.inj ((Visit.place_of_found rfl hlook).symm.trans hplace)
    exact hnew
  | @repeated a place entry judged d bytes uncovered hr hlook hmatch =>
    have hids := CacheStore.looseIdentities_congr (s.identities_repeated place r.ref bytes
      entry.identity (r.objectRange rules.completeness) r)
    refine ⟨fun p l hl => by rw [hids, hl], fun p hplace => ⟨a, hr.asked, ?_⟩⟩
    obtain rfl := Option.some.inj ((Visit.place_of_found rfl hlook).symm.trans hplace)
    rw [hids, CacheStore.looseIdentities, List.getElem?_map, hs.listed hmatch.listed,
      Option.map_some, hmatch.loose]

theorem Outcome.keepsPlaces {visits : List Visit} (ho : rules.Outcome s r o) (hs : s.Consistent)
    (h : s.KeepsPlaces rules visits) : o.1.KeepsPlaces rules (visits ++ [Visit.of s r o.2]) := by
  obtain ⟨hkept, hnew⟩ := ho.looseIdentities hs
  intro v hv place hplace
  rcases List.mem_append.mp hv with hv | hv
  · obtain ⟨a, ha, hloose⟩ := h v hv place hplace
    exact ⟨a, ha, hkept place _ hloose⟩
  · obtain rfl := List.mem_singleton.mp hv
    exact hnew place hplace

theorem keepsPlaces_visitsFrom (rules : CacheRules) (rs : List Reply) :
    (rules.storeAfter rs).KeepsPlaces rules (rules.visitsFrom .empty rs) := by
  induction rs using List.reverseRecOn with
  | nil => exact fun v hv => absurd hv List.not_mem_nil
  | append_singleton rs r ih =>
    rw [storeAfter_append_singleton, visitsFrom_append_singleton]
    have hs := rules.consistent_storeAfter rs
    exact (rules.outcome_step hs r).keepsPlaces hs ih

/-- Replies that share an entry are about objects that differ in their entity tags alone. -/
theorem loose_eq_of_place {sessions : List Session} {v w : Visit} {a b : Asked} {place : Nat}
    (hv : v ∈ rules.visits sessions) (hw : w ∈ rules.visits sessions) (ha : v.reply.asked = some a)
    (hb : w.reply.asked = some b) (hvp : v.place = some place) (hwp : w.place = some place) :
    (rules.identityOf v.reply a).loose = (rules.identityOf w.reply b).loose := by
  have hkeeps := rules.keepsPlaces_visitsFrom (repliesOf sessions)
  obtain ⟨a', ha', hva⟩ := hkeeps v hv place hvp
  obtain ⟨b', hb', hwb⟩ := hkeeps w hw place hwp
  obtain rfl := Option.some.inj (ha.symm.trans ha')
  obtain rfl := Option.some.inj (hb.symm.trans hb')
  exact Option.some.inj (hva.symm.trans hwb)

end CacheRules

/-- Requests whose targets do not begin with the query have one path just when they
ask for the same, up to the slash that an empty target lacks. Only then can their
replies share a cache entry. -/
theorem path_eq_iff_of_absolute (rules : CacheRules) (sessions : List Session) {a b : Asked}
    {t u : List Char} (ha : a.AsksFor t) (hb : b.AsksFor u) (ht : t.head? ≠ some '?')
    (hu : u.head? ≠ some '?') :
    (∀ r q, (rules.identityOf r a).path = (rules.identityOf q b).path ↔ rooted t = rooted u) ∧
    ∀ v ∈ rules.visits sessions, ∀ w ∈ rules.visits sessions, ∀ place, v.reply.asked = some a →
      w.reply.asked = some b → v.place = some place → w.place = some place →
      rooted t = rooted u := by
  have hpath : a.path = b.path ↔ rooted t = rooted u := by
    rw [← String.toList_inj, ha.path_toList ht, hb.path_toList hu]
  refine ⟨fun r q => hpath, fun v hv w hw place hva hwb hvp hwp => ?_⟩
  have hloose := CacheRules.loose_eq_of_place hv hw hva hwb hvp hwp
  exact hpath.mp (congrArg LooseIdentity.path hloose)

/-- Requests for the given targets, each with the reply to it. -/
def sampleFetches (fetches : List (String × String)) : Session :=
  .ofPackets .sample .tcp
    ((fetches.zipIdx.map fun ((target, _), i) =>
        .sampleAt (.ofNat (i + 1)) .uplink (.ofNat (100 * i))
          ("GET " ++ target ++ " HTTP/1.1\r\n\r\n")) ++
      fetches.zipIdx.map fun ((_, body), i) =>
        .sampleAt (.ofNat (fetches.length + i + 1)) .downlink (.ofNat (1000 * i))
          (sampleReply "200 OK" "Server: s" body))

/-- The entry that a visit is about, the target asked for, and what the decision was. -/
def Visit.summary (v : Visit) : Option Nat × Option String × Diagnosis :=
  (v.place, v.reply.asked.bind (·.exchange.uri?), v.decision.diagnosis)

theorem Visit.exists_of_summary {visits : List Visit} {place : Nat} {uri : String} {d : Diagnosis}
    (h : (some place, some uri, d) ∈ visits.map Visit.summary) :
    ∃ v ∈ visits, ∃ a, v.reply.asked = some a ∧ a.exchange.uri? = some uri ∧ v.place = some place ∧
      v.decision.diagnosis = d := by
  obtain ⟨v, hv, hsummary⟩ := List.mem_map.mp h
  simp only [summary, Prod.mk.injEq] at hsummary
  obtain ⟨hplace, huri, hd⟩ := hsummary
  obtain ⟨a, ha, huri⟩ := Option.bind_eq_some_iff.mp huri
  exact ⟨v, hv, a, ha, huri, hplace, hd⟩

/-- An empty target and a slash share an entry. -/
theorem path_eq_iff_of_absolute_of_slash :
    let rules : CacheRules := ⟨.standard, .standard⟩
    let s := sampleFetches [("http://h", "hi"), ("http://h/", "hi")]
    let sessions := Session.reassembleEach [(s, ⟨.standard, 200⟩, 0)]
    ∃ v ∈ rules.visits sessions, ∃ w ∈ rules.visits sessions, ∃ a b, v.reply.asked = some a ∧
      w.reply.asked = some b ∧ a.AsksFor [] ∧ b.AsksFor ['/'] ∧
      (rules.identityOf v.reply a).path = (rules.identityOf w.reply b).path ∧
      v.place = some 0 ∧ w.place = some 0 ∧ rooted [] = rooted ['/'] := by
  intro rules s sessions
  have hreplies : repliesOf sessions = unsortedReplies [s.listedAsFound ⟨.standard, 200⟩ 0] :=
    repliesOf_reassembleEach (by decide) (by decide) (by decide +kernel) (by decide +kernel)
  have hvisits : (rules.visits sessions).map Visit.summary =
      [(some 0, some "http://h", .cacheMiss), (some 0, some "http://h/", .notExpiredDup)] := by
    rw [CacheRules.visits, hreplies]
    decide +kernel
  obtain ⟨v, hv, a, ha, huri, hvp, -⟩ := Visit.exists_of_summary (hvisits ▸ List.mem_cons_self)
  obtain ⟨w, hw, b, hb, huri', hwp, -⟩ :=
    Visit.exists_of_summary (hvisits ▸ List.mem_cons_of_mem _ List.mem_cons_self)
  have hat : a.AsksFor [] := ⟨_, huri, ⟨"http://", by simp, ['h'], by simp, by decide⟩, .inl rfl⟩
  have hbt : b.AsksFor ['/'] :=
    ⟨_, huri', ⟨"http://", by simp, ['h'], by simp, by decide⟩, .inr (.inl rfl)⟩
  obtain ⟨hpath, hplace⟩ :=
    path_eq_iff_of_absolute rules sessions hat hbt (by decide) (by decide)
  have hrooted := hplace v hv w hw 0 ha hb hvp hwp
  exact ⟨v, hv, w, hw, a, b, ha, hb, hat, hbt, (hpath _ _).mpr hrooted, hvp, hwp, hrooted⟩

/-- Two targets that differ in a query without a path have one path, and the second reply counts as
a duplicate of the first. -/
theorem path_eq_of_queries :
    let rules : CacheRules := ⟨.standard, .standard⟩
    let s := sampleFetches [("http://h?a", "hi"), ("http://h?b", "yo")]
    let sessions := Session.reassembleEach [(s, ⟨.standard, 200⟩, 0)]
    ∃ v ∈ rules.visits sessions, ∃ w ∈ rules.visits sessions, ∃ a b, v.reply.asked = some a ∧
      w.reply.asked = some b ∧ a.AsksFor ['?', 'a'] ∧ b.AsksFor ['?', 'b'] ∧
      (rules.identityOf v.reply a).path = (rules.identityOf w.reply b).path ∧
      v.place = some 0 ∧ w.place = some 0 ∧ w.decision.diagnosis = .notExpiredDup ∧
      rooted ['?', 'a'] ≠ rooted ['?', 'b'] := by
  intro rules s sessions
  have hreplies : repliesOf sessions = unsortedReplies [s.listedAsFound ⟨.standard, 200⟩ 0] :=
    repliesOf_reassembleEach (by decide) (by decide) (by decide +kernel) (by decide +kernel)
  have hvisits : (rules.visits sessions).map Visit.summary =
      [(some 0, some "http://h?a", .cacheMiss), (some 0, some "http://h?b", .notExpiredDup)] := by
    rw [CacheRules.visits, hreplies]
    decide +kernel
  obtain ⟨v, hv, a, ha, huri, hvp, -⟩ := Visit.exists_of_summary (hvisits ▸ List.mem_cons_self)
  obtain ⟨w, hw, b, hb, huri', hwp, hd⟩ :=
    Visit.exists_of_summary (hvisits ▸ List.mem_cons_of_mem _ List.mem_cons_self)
  have hpath : a.path = b.path := by
    rw [Asked.path, Asked.path, Exchange.path?, Exchange.path?, huri, huri']
    decide
  exact ⟨v, hv, w, hw, a, b, ha, hb,
    ⟨_, huri, ⟨"http://", by simp, ['h'], by simp, by decide⟩, .inr (.inr rfl)⟩,
    ⟨_, huri', ⟨"http://", by simp, ['h'], by simp, by decide⟩, .inr (.inr rfl)⟩,
    hpath, hvp, hwp, hd, by decide⟩

end HttpCapture
