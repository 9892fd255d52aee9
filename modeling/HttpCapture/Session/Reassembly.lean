import HttpCapture.Exchange.Encrypted
import HttpCapture.Exchange.Messages

/-! A session's streams and exchanges, rebuilt from its packets. Responses are paired with requests
first come, first served, in the order of their capture. -/

namespace HttpCapture

/-- Order of capture, a request before a response of the same moment. -/
def Exchange.capturedBefore (a b : Exchange) : Bool :=
  a.timestamp.rank < b.timestamp.rank ||
    (a.timestamp.rank == b.timestamp.rank && (a.isRequest || !b.isRequest))

def numberExchanges (es : List Exchange) : List Exchange :=
  es.zipIdx.map fun (e, i) => { e with index := i }

/-- A final response answers a request; an interim one does not. -/
def Exchange.isFinal (e : Exchange) : Bool := e.isResponse && !e.status?.any (· < 200)

/-- For each final response its request, if one is waiting. `waiting` holds the requests not yet
answered, the oldest first. -/
def answers (waiting : List Nat) (i : Nat) : List Exchange → List (Nat × Option Nat)
  | [] => []
  | e :: es =>
    if e.isRequest then answers (waiting ++ [i]) (i + 1) es
    else if e.isFinal then (i, waiting.head?) :: answers waiting.tail (i + 1) es
    else answers waiting (i + 1) es

/-- Enter an exchange's partner, or report that it has none. -/
def Exchange.pairBy (pairs : List (Nat × Option Nat)) (e : Exchange) (i : Nat) : Exchange :=
  if e.isRequest then { e with paired := (pairs.find? (·.2 = some i)).map (·.1) }
  else
    match pairs.lookup i with
    | some (some request) => { e with paired := some request }
    | some none => e.note .requestResponseUnlinked
    | none => e

def pairExchanges (es : List Exchange) : List Exchange :=
  let pairs := answers [] 0 es
  es.zipIdx.map fun (e, i) => e.pairBy pairs i

namespace Session

/-- A reading of one direction of the session. -/
def reading (s : Session) (limits : ReadingLimits) (sessionIndex : Nat) (d : Direction) :
    Reading where
  limits := limits
  sessionIndex := sessionIndex
  direction := d
  stream := s.stream d
  timeOf := s.packetTime

/-- The messages of both streams, requests first. -/
def plainExchanges (s : Session) (limits : ReadingLimits) (sessionIndex : Nat) : List Exchange :=
  let requests := (s.reading limits sessionIndex .uplink).messages []
  requests ++
    (s.reading limits sessionIndex .downlink).messages (requests.filterMap Exchange.method?)

/-- The exchanges of a session whose streams are built, in order and paired. -/
def findExchanges (s : Session) (limits : ReadingLimits) (sessionIndex : Nat) : List Exchange :=
  let found :=
    if s.ssl && !s.decrypted then s.encryptedExchanges sessionIndex
    else s.plainExchanges limits sessionIndex
  pairExchanges (numberExchanges (found.mergeSort Exchange.capturedBefore))

def withStreams (s : Session) : Session :=
  { s with streams := ⟨s.buildStream .uplink, s.buildStream .downlink⟩ }

/-- Rebuild streams and exchanges; nothing is kept of an earlier run but what it reported. -/
def reassemble (s : Session) (limits : ReadingLimits) (sessionIndex : Nat) : Session :=
  let s := { s with exchanges := [], streams := .both .empty }
  if s.packets.isEmpty then
    if s.diagnostics.contains .withoutPackets then s
    else { s with diagnostics := s.diagnostics ++ [.withoutPackets] }
  else if !s.isTcp then s
  else
    let s := s.withStreams
    { s with exchanges := s.findExchanges limits sessionIndex }

/-- The content of one of the session's exchanges. -/
def content (s : Session) (e : Exchange) : Except ContentError Bytes :=
  e.content .standard (s.stream e.direction).bytes

end Session

end HttpCapture
