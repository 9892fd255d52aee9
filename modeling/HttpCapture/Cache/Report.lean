import HttpCapture.Cache.Replay

/-! What the replay of a capture comes to. -/

namespace HttpCapture

/-- An object that was sent again. -/
structure DuplicateEntry where
  identity : ObjectIdentity
  original : ExchangeRef
  occurrences : List ExchangeRef
  bytes : Nat
  deriving DecidableEq, Repr

def Diagnosis.rank (d : Diagnosis) : Nat := Diagnosis.all.idxOf d

def Freshness.rank (f : Freshness) : Nat := Freshness.all.idxOf f

structure CacheReport where
  decisions : List CacheDecision
  duplicates : List DuplicateEntry
  totalResponseBytes : Nat
  duplicateBytes : Nat
  /-- The responses of each judgement of freshness that occurs. -/
  byFreshness : Table Freshness (List ExchangeRef)
  /-- How often each diagnosis occurs that does. -/
  diagnosisCounts : Table Diagnosis Nat
  deriving DecidableEq, Repr

namespace CacheReport

def empty : CacheReport := ⟨[], [], 0, 0, [], []⟩

/-- Enter the decision on a reply. -/
def add (report : CacheReport) (r : Reply) (d : CacheDecision) : CacheReport :=
  { report with
    totalResponseBytes := report.totalResponseBytes + r.bodyBytes
    duplicateBytes := report.duplicateBytes + d.duplicateBytes
    diagnosisCounts := report.diagnosisCounts.amend Diagnosis.rank d.diagnosis 0 (· + 1)
    byFreshness :=
      match d.freshness with
      | none => report.byFreshness
      | some f => report.byFreshness.amend Freshness.rank f [] (· ++ [d.response])
    decisions := report.decisions ++ [d] }

/-- The share of response bytes that were sent before. -/
def duplicateRatio (r : CacheReport) : Float :=
  if r.totalResponseBytes > 0 then
    r.duplicateBytes.toUInt64.toFloat / r.totalResponseBytes.toUInt64.toFloat
  else 0

def decisionFor (r : CacheReport) (ref : ExchangeRef) : Option CacheDecision :=
  r.decisions.find? (·.response = ref)

end CacheReport

/-- The duplicates that the entries have counted. -/
def CacheStore.duplicateEntries (s : CacheStore) : List DuplicateEntry :=
  (s.entries.filter fun e => !e.duplicates.isEmpty).map fun e =>
    ⟨e.identity, e.stored.ref, e.duplicates, e.duplicateBytes⟩

namespace CacheRules

/-- Judge the next reply and enter the decision. -/
def record (rules : CacheRules) (state : CacheStore × CacheReport) (r : Reply) :
    CacheStore × CacheReport :=
  let (s, d) := rules.step state.1 r
  (s, state.2.add r d)

/-- Replay the replies of all sessions against an empty cache. -/
def report (rules : CacheRules) (sessions : List Session) : CacheReport :=
  let (store, report) := (repliesOf sessions).foldl rules.record (.empty, .empty)
  { report with duplicates := store.duplicateEntries }

end CacheRules

end HttpCapture
