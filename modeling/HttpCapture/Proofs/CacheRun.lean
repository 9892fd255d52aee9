import HttpCapture.Proofs.CacheListing
import HttpCapture.Proofs.ReportTallies
import HttpCapture.Proofs.SessionIndexes
import Mathlib.Data.List.Induction

/-! All that a reply can do to the cache, and the cache as it is after some replies. -/

namespace HttpCapture

def Asked.path (a : Asked) : String := a.exchange.path?.getD "/"

namespace Diagnosis

/-- The object was sent before and has not changed. -/
def isRepeat : Diagnosis → Bool
  | .notExpiredDup | .notExpiredDupPartialHit => true
  | .objNotChangedDupServer | .objNotChangedDupClient => true
  | _ => false

/-- The cache had something to compare with. -/
def isHit (d : Diagnosis) : Bool := d.isRepeat || d == .objChanged || d == .objNotChanged304

end Diagnosis

def CacheStore.countHit (s : CacheStore) (place : Nat) : CacheStore :=
  s.modifyEntry place fun e => { e with hits := e.hits + 1 }

namespace CacheRules

/-- A reply with a request whose object could be kept. -/
structure Cacheable (rules : CacheRules) (r : Reply) (a : Asked) : Prop where
  asked : r.asked = some a
  admitted : a.exchange.method?.any rules.policy.admits = true
  requestStores : (CacheDirectives.ofFields a.exchange.fields).noStore = false
  replyStores : (CacheDirectives.ofFields r.response.fields).noStore = false
  status : r.response.status? = some 200 ∨ r.response.status? = some 206

def identityOf (rules : CacheRules) (r : Reply) (a : Asked) : ObjectIdentity :=
  r.identity rules.completeness a.host a.path

/-- What comes of a reply: how the cache goes on, and the decision. -/
inductive Outcome (rules : CacheRules) (s : CacheStore) (r : Reply) :
    CacheStore × CacheDecision → Prop
  | ignored {d : Diagnosis} (hno : ∀ a, ¬rules.Cacheable r a)
      (hd : d = .requestNotFound ∨ d = .invalidRequest ∨ d = .invalidResponse) :
      Outcome rules s r (s, r.rejected d)
  | evicted {a : Asked} (hno : ∀ a, ¬rules.Cacheable r a) (ha : r.asked = some a) :
      Outcome rules s r (s.evict a.host a.path, r.rejected .notCacheable)
  | revalidated {a : Asked} (hno : ∀ a, ¬rules.Cacheable r a) (ha : r.asked = some a)
      (hpath : s.hasPath a.host a.path = true) :
      Outcome rules s r (s.revalidate a.host a.path, r.rejected .objNotChanged304)
  | missed {a : Asked} (hr : rules.Cacheable r a) (hnone : s.lookup (rules.identityOf r a) = none) :
      Outcome rules s r (rules.miss s r a (rules.identityOf r a))
  | changed {a : Asked} {place : Nat} {entry : CacheEntry} {judged : Freshness}
      (hr : rules.Cacheable r a) (hlook : s.lookup (rules.identityOf r a) = some place)
      (hmatch : s.Matches (rules.identityOf r a) place entry) :
      Outcome rules s r
        (((s.countHit place).replace place entry.identity (rules.identityOf r a) a.ref r).merge
            (rules.identityOf r a) (r.objectRange rules.completeness) r,
          ⟨r.ref, some a.ref, some (rules.identityOf r a), .objChanged, some judged, 0, 0⟩)
  | repeated {a : Asked} {place : Nat} {entry : CacheEntry} {judged : Freshness} {d : Diagnosis}
      {bytes uncovered : Nat} (hr : rules.Cacheable r a)
      (hlook : s.lookup (rules.identityOf r a) = some place)
      (hmatch : s.Matches (rules.identityOf r a) place entry) (hd : d.isRepeat = true)
      (hbytes : bytes = r.verifiedBytes rules.completeness
        ((s.pieces.get? entry.identity).getD [])) :
      Outcome rules s r
        (((s.countHit place).addDuplicate place r.ref bytes).merge entry.identity
            (r.objectRange rules.completeness) r,
          ⟨r.ref, some a.ref, some (rules.identityOf r a), d, some judged, bytes, uncovered⟩)

theorem compare_cases (rules : CacheRules) (s : CacheStore) (entry : CacheEntry) (r : Reply)
    (a : Asked) (judged : Freshness) :
    rules.compare s entry r a judged = (.objChanged, 0, 0) ∨
      ∃ d uncovered, d.isRepeat = true ∧ rules.compare s entry r a judged =
        (d, r.verifiedBytes rules.completeness ((s.pieces.get? entry.identity).getD []),
          uncovered) := by
  unfold compare
  dsimp only
  split
  · right
    split
    · exact ⟨_, _, rfl, rfl⟩
    · split
      · exact ⟨_, _, rfl, rfl⟩
      · refine ⟨_, _, ?_, rfl⟩
        split <;> rfl
  · split
    · right
      refine ⟨_, _, ?_, rfl⟩
      split <;> rfl
    · exact .inl rfl

theorem outcome_judge (rules : CacheRules) {s : CacheStore} (h : s.Consistent) {r : Reply}
    {a : Asked} (hr : rules.Cacheable r a) : rules.Outcome s r (rules.judge s r a a.path) := by
  unfold judge
  dsimp only
  rw [show r.identity rules.completeness a.host a.path = rules.identityOf r a from rfl]
  cases hlook : s.lookup (rules.identityOf r a) with
  | none => exact .missed hr hlook
  | some place =>
    obtain ⟨entry, hmatch⟩ := h.matches_of_lookup hlook
    simp only [Option.bind_some, hmatch.present, Option.map_some]
    unfold hit
    dsimp only
    rw [show (s.modifyEntry place fun e => { e with hits := e.hits + 1 }) =
      s.countHit place from rfl]
    rcases rules.compare_cases (s.countHit place) entry r a
      (freshness entry.stored.response a.exchange (Instant.ofTimestamp a.exchange.timestamp)
        rules.policy.assumedLifetime) with hc | ⟨d, uncovered, hd, hc⟩
    · rw [hc]
      exact .changed hr hlook hmatch
    · have hne : d ≠ .objChanged := fun he => by simp [he, Diagnosis.isRepeat] at hd
      rw [hc]
      dsimp only
      rw [if_neg hne]
      exact .repeated hr hlook hmatch hd rfl

theorem outcome_step (rules : CacheRules) {s : CacheStore} (h : s.Consistent) (r : Reply) :
    rules.Outcome s r (rules.step s r) := by
  unfold step
  split
  · next hnone => exact .ignored (fun a hr => absurd hr.asked (by simp [hnone])) (.inl rfl)
  · next a ha =>
    have hasked : ∀ b, rules.Cacheable r b → rules.Cacheable r a := by
      intro b hr
      obtain rfl := Option.some.inj (ha.symm.trans hr.asked)
      exact hr
    split
    · next hmethod =>
      refine .ignored (fun b hr => ?_) (.inr (.inl rfl))
      simp [(hasked b hr).admitted] at hmethod
    · next hmethod =>
      dsimp only
      rw [show a.exchange.path?.getD "/" = a.path from rfl]
      split
      · next hstore =>
        refine .evicted (fun b hr => ?_) ha
        simp [(hasked b hr).requestStores, hr.replyStores] at hstore
      · next hstore =>
        have hr (hstatus : r.response.status? = some 200 ∨ r.response.status? = some 206) :
            rules.Cacheable r a :=
          ⟨ha, by simpa using hmethod, by simp_all, by simp_all, hstatus⟩
        split
        · next hstatus =>
          have hno : ∀ b, ¬rules.Cacheable r b := fun b hr => by simpa [hstatus] using hr.status
          split
          · next hpath => exact .revalidated hno ha hpath
          · exact .ignored hno (.inr (.inr rfl))
        · next hstatus => exact outcome_judge rules h (hr (.inl hstatus))
        · next hstatus => exact outcome_judge rules h (hr (.inr hstatus))
        · next hwhole hpart =>
          refine .ignored (fun b hr => ?_) (.inr (.inr rfl))
          rcases hr.status with hs | hs
          · exact hwhole hs
          · exact hpart hs

end CacheRules

namespace CacheStore

theorem listing_merge (s : CacheStore) (i : ObjectIdentity) (range : Option ByteRange) (r : Reply) :
    (s.merge i range r).byIdentity = s.byIdentity ∧ (s.merge i range r).byLoose = s.byLoose ∧
      (s.merge i range r).entries = s.entries := by
  unfold merge
  dsimp only
  split
  · exact ⟨rfl, rfl, rfl⟩
  · split
    · exact ⟨rfl, rfl, rfl⟩
    · exact ⟨rfl, rfl, rfl⟩

theorem identities_merge (s : CacheStore) (i : ObjectIdentity) (range : Option ByteRange)
    (r : Reply) : (s.merge i range r).identities = s.identities := by
  rw [identities, (s.listing_merge i range r).2.2, identities]

theorem identities_countHit (s : CacheStore) (place : Nat) :
    (s.countHit place).identities = s.identities :=
  s.identities_modifyEntry place fun _ => rfl

theorem identities_addDuplicate (s : CacheStore) (place : Nat) (ref : ExchangeRef) (bytes : Nat) :
    (s.addDuplicate place ref bytes).identities = s.identities :=
  s.identities_modifyEntry place fun _ => rfl

theorem Matches.lt_length_countHit {s : CacheStore} {i : ObjectIdentity} {place : Nat}
    {entry : CacheEntry} (h : s.Matches i place entry) :
    place < (s.countHit place).entries.length := by
  rw [countHit, modifyEntry, List.length_modify]
  exact (List.getElem?_eq_some_iff.mp h.present).1

theorem Relists.merge {s t : CacheStore} {place : Nat} {new : ObjectIdentity}
    (h : s.Relists t place new) (i : ObjectIdentity) (range : Option ByteRange) (r : Reply) :
    s.Relists (t.merge i range r) place new where
  listed := by
    rw [(t.listing_merge i range r).1]
    exact h.listed
  identities := by
    rw [identities_merge]
    exact h.identities

theorem Relists.of_countHit {s t : CacheStore} {place hit : Nat} {new : ObjectIdentity}
    (h : (s.countHit hit).Relists t place new) : s.Relists t place new where
  listed := h.listed
  identities := by
    rw [← s.identities_countHit hit]
    exact h.identities

theorem Consistent.merge {s : CacheStore} (h : s.Consistent) (i : ObjectIdentity)
    (range : Option ByteRange) (r : Reply) : (s.merge i range r).Consistent := by
  obtain ⟨hi, hl, he⟩ := s.listing_merge i range r
  exact h.congr hi hl (by rw [identities, identities, he])

theorem Consistent.modifyEntry {s : CacheStore} (h : s.Consistent) (place : Nat)
    {f : CacheEntry → CacheEntry} (hf : ∀ e, (f e).identity = e.identity) :
    (s.modifyEntry place f).Consistent :=
  h.congr rfl rfl (s.identities_modifyEntry place hf)

theorem Consistent.countHit {s : CacheStore} (h : s.Consistent) (place : Nat) :
    (s.countHit place).Consistent :=
  h.modifyEntry place fun _ => rfl

theorem Consistent.addDuplicate {s : CacheStore} (h : s.Consistent) (place : Nat)
    (ref : ExchangeRef) (bytes : Nat) : (s.addDuplicate place ref bytes).Consistent :=
  h.modifyEntry place fun _ => rfl

theorem Consistent.revalidate {s : CacheStore} (h : s.Consistent) (host path : String) :
    (s.revalidate host path).Consistent := by
  unfold CacheStore.revalidate
  split
  · exact h.modifyEntry _ fun _ => rfl
  · exact h

/-- A matched entry keeps its place when it takes the identity of the reply. -/
theorem Consistent.relists_changed {s : CacheStore} (h : s.Consistent) {place : Nat}
    {new : ObjectIdentity} {entry : CacheEntry} (hmatch : s.Matches new place entry)
    (request : ExchangeRef) (range : Option ByteRange) (r : Reply) :
    s.Relists (((s.countHit place).replace place entry.identity new request r).merge new range r)
      place new := by
  have hnew : entry.identity = new ∨ (s.countHit place).byIdentity.get? new = none :=
    hmatch.tag.imp_right And.right
  have hreplaced := (h.countHit place).relists_replace hmatch.listed hnew request r
  exact hreplaced.of_countHit.merge new range r

theorem identities_repeated (s : CacheStore) (place : Nat) (ref : ExchangeRef) (bytes : Nat)
    (i : ObjectIdentity) (range : Option ByteRange) (r : Reply) :
    (((s.countHit place).addDuplicate place ref bytes).merge i range r).identities =
      s.identities := by
  rw [identities_merge, identities_addDuplicate, identities_countHit]

theorem getElem?_identities_length (s : CacheStore) : s.identities[s.entries.length]? = none :=
  List.getElem?_eq_none (Nat.le_of_eq s.length_identities)

theorem Consistent.loose_of_matches {s : CacheStore} (h : s.Consistent) {place : Nat}
    {i new : ObjectIdentity} {entry : CacheEntry} (hmatch : s.Matches new place entry)
    (hi : s.identities[place]? = some i) : i.loose = new.loose := by
  obtain rfl := Option.some.inj ((h.listed hmatch.listed).symm.trans hi)
  exact hmatch.loose

end CacheStore

namespace CacheRules

/-- A reply that misses is entered behind all entries. -/
theorem relists_miss (rules : CacheRules) {s : CacheStore} (hs : s.Consistent)
    {r : Reply} {a : Asked} (hnone : s.lookup (rules.identityOf r a) = none) :
    s.Relists (rules.miss s r a (rules.identityOf r a)).1 s.entries.length (rules.identityOf r a) :=
  (hs.relists_insert (e := ⟨rules.identityOf r a, a.ref, r, .cacheMiss, 0, [], 0⟩)
    ((hs.lookup_eq_none_iff _).mp hnone).1).merge _ _ _

theorem Outcome.consistent {rules : CacheRules} {s : CacheStore} {r : Reply}
    {o : CacheStore × CacheDecision} (ho : rules.Outcome s r o) (h : s.Consistent) :
    o.1.Consistent := by
  cases ho with
  | ignored => exact h
  | evicted => exact h.evict _ _
  | revalidated => exact h.revalidate _ _
  | missed hr hnone => exact (h.insert ((h.lookup_eq_none_iff _).mp hnone).1).merge _ _ _
  | changed hr hlook hmatch =>
    exact ((h.countHit _).replace hmatch.listed hmatch.loose _ _).merge _ _ _
  | repeated => exact ((h.countHit _).addDuplicate _ _ _).merge _ _ _

theorem Outcome.response {rules : CacheRules} {s : CacheStore} {r : Reply}
    {o : CacheStore × CacheDecision} (ho : rules.Outcome s r o) : o.2.response = r.ref := by
  cases ho <;> rfl

def storeAfter (rules : CacheRules) (rs : List Reply) : CacheStore := (rules.replay .empty rs).1

theorem replay_append_singleton (rules : CacheRules) (s : CacheStore) (rs : List Reply)
    (r : Reply) : (rules.replay s (rs ++ [r])).1 = (rules.step (rules.replay s rs).1 r).1 := by
  induction rs generalizing s with
  | nil => rfl
  | cons q rs ih => exact ih (rules.step s q).1

theorem storeAfter_append_singleton (rules : CacheRules) (rs : List Reply) (r : Reply) :
    rules.storeAfter (rs ++ [r]) = (rules.step (rules.storeAfter rs) r).1 :=
  rules.replay_append_singleton .empty rs r

theorem consistent_storeAfter (rules : CacheRules) (rs : List Reply) :
    (rules.storeAfter rs).Consistent := by
  induction rs using List.reverseRecOn with
  | nil => exact CacheStore.consistent_empty
  | append_singleton rs r ih =>
    rw [storeAfter_append_singleton]
    exact (rules.outcome_step ih r).consistent ih

theorem replay_getElem? (rules : CacheRules) (s : CacheStore) (rs : List Reply) (n : Nat) :
    (rules.replay s rs).2[n]? =
      rs[n]?.map fun r => (rules.step (rules.replay s (rs.take n)).1 r).2 := by
  induction rs generalizing s n with
  | nil => simp [replay]
  | cons q rs ih =>
    cases n with
    | zero => simp [replay]
    | succ n => simpa [replay] using ih (rules.step s q).1 n

theorem decisions_getElem? (rules : CacheRules) (sessions : List Session) (n : Nat) :
    (rules.report sessions).decisions[n]? = (repliesOf sessions)[n]?.map fun r =>
      (rules.step (rules.storeAfter ((repliesOf sessions).take n)) r).2 := by
  rw [(rules.tallies_report sessions).decisions]
  exact rules.replay_getElem? .empty _ n

end CacheRules

def unsortedReplies (sessions : List Session) : List Reply :=
  sessions.zipIdx.flatMap fun e => e.1.replies e.2

theorem repliesOf_of_pairwise {sessions : List Session}
    (h : (unsortedReplies sessions).Pairwise fun a b => a.arrivedBefore b) :
    repliesOf sessions = unsortedReplies sessions :=
  List.mergeSort_of_pairwise h

/-- Requests for one path and the given replies to them, the first body at `offset`. -/
def sampleExchanges (index offset : Nat) : List (Exchange × Bytes) → List Exchange
  | [] => []
  | (reply, body) :: rest =>
    { Exchange.start 0 .uplink (.request "GET" "/" "HTTP/1.1") with
      index := index, paired := some (index + 1) } ::
    { reply with index := index + 1, paired := some index, body := [(offset, body.length)] } ::
    sampleExchanges (index + 2) (offset + body.length) rest

def Session.ofReplies (replies : List (Exchange × Bytes)) : Session :=
  { Session.new .sample .tcp with
    streams := ⟨.empty, ⟨replies.flatMap (·.2), []⟩⟩
    exchanges := sampleExchanges 0 0 replies }

end HttpCapture
