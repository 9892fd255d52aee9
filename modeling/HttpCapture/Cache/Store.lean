import HttpCapture.Cache.Identity
import HttpCapture.Cache.RangeSet
import HttpCapture.Table

/-! The contents of the simulated cache. Entries are never removed, since they also count
duplicates; an entry can be found as long as its identity is listed. -/

namespace HttpCapture

structure CacheEntry where
  identity : ObjectIdentity
  request : ExchangeRef
  /-- The response stored last. -/
  stored : Reply
  diagnosis : Diagnosis
  hits : Nat
  /-- Later responses that repeat the entry's object, and how many of their bytes do. -/
  duplicates : List ExchangeRef
  duplicateBytes : Nat

structure CacheStore where
  entries : List CacheEntry
  byIdentity : Table ObjectIdentity Nat
  /-- The same object whatever its entity tag, for responses that have none. -/
  byLoose : Table LooseIdentity Nat
  ranges : Table ObjectIdentity RangeSet
  /-- The replies whose bytes make up the ranges. -/
  pieces : Table ObjectIdentity (List Reply)

namespace CacheStore

def empty : CacheStore := ⟨[], [], [], [], []⟩

def lookup (s : CacheStore) (i : ObjectIdentity) : Option Nat :=
  s.byIdentity.get? i <|> if i.validator.isNone then s.byLoose.get? i.loose else none

def insert (s : CacheStore) (e : CacheEntry) : CacheStore :=
  { s with
    byIdentity := s.byIdentity.put e.identity s.entries.length
    byLoose := s.byLoose.put e.identity.loose s.entries.length
    entries := s.entries ++ [e] }

def hasPath (s : CacheStore) (host path : String) : Bool :=
  s.byIdentity.any (·.1.isAt host path)

/-- Forget every object at a path. -/
def evict (s : CacheStore) (host path : String) : CacheStore :=
  { s with
    byIdentity := s.byIdentity.filter (!·.1.isAt host path)
    byLoose := s.byLoose.filter fun (k, _) => !(k.host = host ∧ k.path = path)
    ranges := s.ranges.filter (!·.1.isAt host path)
    pieces := s.pieces.filter (!·.1.isAt host path) }

def modifyEntry (s : CacheStore) (i : Nat) (f : CacheEntry → CacheEntry) : CacheStore :=
  { s with entries := s.entries.modify i f }

/-- Count a revalidation for the latest entry at a path. -/
def revalidate (s : CacheStore) (host path : String) : CacheStore :=
  match (s.entries.zipIdx.filter (·.1.identity.isAt host path)).getLast? with
  | some (_, i) => s.modifyEntry i fun e => { e with hits := e.hits + 1 }
  | none => s

/-- Replace what an entry holds by a new response with its own identity. -/
def replace (s : CacheStore) (i : Nat) (old new : ObjectIdentity) (request : ExchangeRef)
    (reply : Reply) : CacheStore :=
  { s with
    byIdentity := (s.byIdentity.erase old).put new i
    byLoose := (s.byLoose.erase old.loose).put new.loose i
    ranges := s.ranges.erase old
    pieces := s.pieces.erase old
    entries := s.entries.modify i fun e =>
      { e with identity := new, request := request, stored := reply, diagnosis := .objChanged } }

/-- Count a reply as a duplicate of an entry. -/
def addDuplicate (s : CacheStore) (i : Nat) (ref : ExchangeRef) (bytes : Nat) : CacheStore :=
  s.modifyEntry i fun e =>
    { e with duplicates := e.duplicates ++ [ref], duplicateBytes := e.duplicateBytes + bytes }

/-- Take over the bytes of a reply. It becomes a piece when it adds bytes to the ranges, or when its
place in the object is not known. -/
def merge (s : CacheStore) (i : ObjectIdentity) (range : Option ByteRange) (r : Reply) :
    CacheStore :=
  let addPiece (s : CacheStore) :=
    { s with pieces := s.pieces.put i ((s.pieces.get? i).getD [] ++ [r]) }
  match range with
  | none => addPiece s
  | some range =>
    let set := (s.ranges.get? i).getD []
    let merged := { s with ranges := s.ranges.put i (set.insert range) }
    if set.covers range then merged else addPiece merged

end CacheStore

end HttpCapture
