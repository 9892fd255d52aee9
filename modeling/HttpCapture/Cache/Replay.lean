import HttpCapture.Cache.Freshness
import HttpCapture.Cache.Store

/-! Replies replayed against the cache. Each is judged by what the cache holds when it
arrives: a miss, a duplicate of a fresh or stale object, a change of the object, or
nothing a cache would keep. -/

namespace HttpCapture

structure CachePolicy where
  /-- Seconds that a response counts as fresh when it says nothing about it. -/
  assumedLifetime : Int
  /-- Methods whose responses may be kept. -/
  methods : List String

namespace CachePolicy

def standard : CachePolicy := ⟨86400, ["GET", "PUT", "POST"]⟩

def admits (p : CachePolicy) (method : String) : Bool := p.methods.any (sameLetters · method)

end CachePolicy

structure CacheRules where
  policy : CachePolicy
  completeness : Completeness

structure CacheDecision where
  response : ExchangeRef
  request : Option ExchangeRef
  identity : Option ObjectIdentity
  diagnosis : Diagnosis
  freshness : Option Freshness
  duplicateBytes : Nat
  uncoveredBytes : Nat
  deriving DecidableEq, Repr

/-- A decision that leaves the object out of account. -/
def Reply.rejected (r : Reply) (d : Diagnosis) : CacheDecision :=
  ⟨r.ref, r.asked.map (·.ref), none, d, none, 0, 0⟩

/-- The bytes of a reply that repeat, byte for byte, one of the given pieces of its object. A
content that is matched throughout counts with all its body bytes. -/
def Reply.verifiedBytes (r : Reply) (c : Completeness) (pieces : List Reply) : Nat :=
  match r.response.span? c r.capture.stream with
  | none => 0
  | some wanted =>
    let matched := (pieces.filterMap fun p => p.capture.matchingRange c r.capture).foldl
      RangeSet.insert ([] : RangeSet)
    let verified := wanted.length - matched.uncovered wanted
    if verified = wanted.length then r.bodyBytes else min verified r.bodyBytes

/-- Whether a response and the one stored have the same content and date of change. -/
def Reply.unchanged (r stored : Reply) (c : Completeness) : Bool :=
  Capture.sameContent c stored.capture r.capture &&
    stored.response.header? "last-modified" == r.response.header? "last-modified"

/-- The request asked for the object only if it had changed. -/
def Exchange.isConditional (e : Exchange) : Bool :=
  (e.header? "if-none-match").isSome || (e.header? "if-modified-since").isSome

namespace CacheRules

/-- A reply for an object that the cache does not hold. -/
def miss (rules : CacheRules) (s : CacheStore) (r : Reply) (a : Asked) (i : ObjectIdentity) :
    CacheStore × CacheDecision :=
  let entry : CacheEntry := ⟨i, a.ref, r, .cacheMiss, 0, [], 0⟩
  ((s.insert entry).merge i (r.objectRange rules.completeness) r,
    ⟨r.ref, some a.ref, some i, .cacheMiss, none, 0, 0⟩)

/-- How a reply relates to an entry: its diagnosis, and the bytes that are repeated and
those that are new to the cache. -/
def compare (rules : CacheRules) (s : CacheStore) (entry : CacheEntry) (r : Reply) (a : Asked)
    (judged : Freshness) : Diagnosis × Nat × Nat :=
  let c := rules.completeness
  let duplicate := r.verifiedBytes c ((s.pieces.get? entry.identity).getD [])
  if !judged.isExpired then
    match r.objectRange c with
    | none => (.notExpiredDup, duplicate, 0)
    | some range =>
      match s.ranges.get? entry.identity with
      | none => (.notExpiredDupPartialHit, duplicate, range.length)
      | some held =>
        (if held.covers range then .notExpiredDup else .notExpiredDupPartialHit, duplicate,
          held.uncovered range)
  else if r.unchanged entry.stored c then
    (if a.exchange.isConditional then .objNotChangedDupServer else .objNotChangedDupClient,
      duplicate, 0)
  else (.objChanged, 0, 0)

/-- A reply for the object of the entry at `place`. -/
def hit (rules : CacheRules) (s : CacheStore) (place : Nat) (entry : CacheEntry) (r : Reply)
    (a : Asked) (i : ObjectIdentity) : CacheStore × CacheDecision :=
  let s := s.modifyEntry place fun e => { e with hits := e.hits + 1 }
  let judged := freshness entry.stored.response a.exchange
    (Instant.ofTimestamp a.exchange.timestamp) rules.policy.assumedLifetime
  let (diagnosis, duplicate, uncovered) := rules.compare s entry r a judged
  let range := r.objectRange rules.completeness
  let s :=
    if diagnosis = .objChanged then (s.replace place entry.identity i a.ref r).merge i range r
    else (s.addDuplicate place r.ref duplicate).merge entry.identity range r
  (s, ⟨r.ref, some a.ref, some i, diagnosis, some judged, duplicate, uncovered⟩)

/-- A reply whose object could be kept. -/
def judge (rules : CacheRules) (s : CacheStore) (r : Reply) (a : Asked) (path : String) :
    CacheStore × CacheDecision :=
  let i := r.identity rules.completeness a.host path
  match (s.lookup i).bind fun place => (s.entries[place]?).map (place, ·) with
  | none => rules.miss s r a i
  | some (place, entry) => rules.hit s place entry r a i

/-- Judge the next reply. -/
def step (rules : CacheRules) (s : CacheStore) (r : Reply) : CacheStore × CacheDecision :=
  match r.asked with
  | none => (s, r.rejected .requestNotFound)
  | some a =>
    if !a.exchange.method?.any rules.policy.admits then (s, r.rejected .invalidRequest)
    else
      let path := a.exchange.path?.getD "/"
      if (CacheDirectives.ofFields a.exchange.fields).noStore ||
          (CacheDirectives.ofFields r.response.fields).noStore then
        (s.evict a.host path, r.rejected .notCacheable)
      else
        match r.response.status? with
        | some 304 =>
          if s.hasPath a.host path then (s.revalidate a.host path, r.rejected .objNotChanged304)
          else (s, r.rejected .invalidResponse)
        | some 200 => rules.judge s r a path
        | some 206 => rules.judge s r a path
        | _ => (s, r.rejected .invalidResponse)

end CacheRules

end HttpCapture
