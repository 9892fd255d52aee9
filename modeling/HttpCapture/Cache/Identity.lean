import HttpCapture.Session.Basic
import HttpCapture.Exchange.Content

/-! What a cache goes by: the object that a response carries, the responses of a capture in the
order in which they arrived, and the reasons for which a response is a hit, a miss or neither. -/

namespace HttpCapture

/-- What makes two responses the same cached object. -/
structure ObjectIdentity where
  host : String
  path : String
  /-- The entity tag. -/
  validator : Option String
  /-- Length of the whole object. -/
  length : Option Nat
  deriving DecidableEq, Repr

/-- An identity without its entity tag. -/
structure LooseIdentity where
  host : String
  path : String
  length : Option Nat
  deriving DecidableEq, Repr

namespace ObjectIdentity

def loose (i : ObjectIdentity) : LooseIdentity := ⟨i.host, i.path, i.length⟩

def isAt (host path : String) (i : ObjectIdentity) : Bool := i.host = host ∧ i.path = path

end ObjectIdentity

/-- An exchange by its session and its place there. -/
structure ExchangeRef where
  session : Nat
  exchange : Nat
  deriving DecidableEq, Repr

/-- A request together with the host it was sent to. -/
structure Asked where
  ref : ExchangeRef
  exchange : Exchange
  host : String

/-- A response as the cache sees it arrive, with the request that it answers. -/
structure Reply where
  ref : ExchangeRef
  capture : Capture
  asked : Option Asked

namespace Reply

def response (r : Reply) : Exchange := r.capture.exchange

/-- Body bytes that were captured. -/
def bodyBytes (r : Reply) : Nat := r.response.capturedLength r.capture.stream.length

/-- Order of arrival; of two responses of one moment the earlier session and exchange come first. -/
def arrivedBefore (a b : Reply) : Bool :=
  let x := a.response.timestamp.rank
  let y := b.response.timestamp.rank
  x < y || (x == y && (a.ref.session < b.ref.session ||
    (a.ref.session == b.ref.session && a.ref.exchange ≤ b.ref.exchange)))

/-- Length of the object: what a partial response says it is, otherwise the declared length of the
body or the length of its content. -/
def objectLength (c : Completeness) (r : Reply) : Option Nat :=
  if r.response.status? = some 206 then r.response.instanceLength
  else r.response.contentLength <|> (r.capture.content c).toOption.map (·.length)

/-- The object bytes that a response carries. -/
def objectRange (c : Completeness) (r : Reply) : Option ByteRange :=
  r.response.range <|> ((r.objectLength c).bind fun n => ByteRange.ofLength? 0 n)

def identity (c : Completeness) (r : Reply) (host path : String) : ObjectIdentity where
  host := host
  path := path
  validator := (r.response.header? "etag").map fun s => String.ofList (trim s.toList)
  length := r.objectLength c

end Reply

/-- The replies of one session. -/
def Session.replies (s : Session) (sessionIndex : Nat) : List Reply :=
  (s.exchanges.filter Exchange.isResponse).map fun e =>
    { ref := ⟨sessionIndex, e.index⟩
      capture := ⟨(s.stream e.direction).bytes, e⟩
      asked := e.paired.bind fun i => (s.exchanges[i]?).map fun request =>
        ⟨⟨sessionIndex, i⟩, request, request.host s.remoteHost s.key.remoteAddr⟩ }

/-- All replies in order of arrival. -/
def repliesOf (sessions : List Session) : List Reply :=
  (sessions.zipIdx.flatMap fun (s, i) => s.replies i).mergeSort Reply.arrivedBefore

inductive Diagnosis
  | requestNotFound
  | invalidRequest
  | invalidResponse
  | notCacheable
  | cacheMiss
  | notExpiredDup
  | notExpiredDupPartialHit
  | objChanged
  | objNotChanged304
  | objNotChangedDupServer
  | objNotChangedDupClient
  deriving DecidableEq, Repr

namespace Diagnosis

def all : List Diagnosis :=
  [.requestNotFound, .invalidRequest, .invalidResponse, .notCacheable, .cacheMiss, .notExpiredDup,
   .notExpiredDupPartialHit, .objChanged, .objNotChanged304, .objNotChangedDupServer,
   .objNotChangedDupClient]

def name : Diagnosis → String
  | .requestNotFound => "request_not_found"
  | .invalidRequest => "invalid_request"
  | .invalidResponse => "invalid_response"
  | .notCacheable => "not_cacheable"
  | .cacheMiss => "cache_miss"
  | .notExpiredDup => "not_expired_dup"
  | .notExpiredDupPartialHit => "not_expired_dup_partial_hit"
  | .objChanged => "obj_changed"
  | .objNotChanged304 => "obj_not_changed304"
  | .objNotChangedDupServer => "obj_not_changed_dup_server"
  | .objNotChangedDupClient => "obj_not_changed_dup_client"

end Diagnosis

end HttpCapture
