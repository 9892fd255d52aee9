import HttpCapture.Session.Basic
import HttpCapture.Table

/-! Packets grouped into sessions. A datagram flow is one session; a connection ends where a request
for a new one is seen, one that does not repeat the first sequence number sent. -/

namespace HttpCapture

/-- The direction of a packet whose capture has none, from what such packets usually carry. -/
def guessDirection (p : Packet) : Direction :=
  match p.tcp? with
  | some info =>
    if info.flags.syn then (if info.flags.ack then .downlink else .uplink) else byPayload
  | none => byPayload
where
  byPayload : Direction :=
    if p.dns.isSome || (utf8Bytes "HTTP/").isPrefixOf p.payload then .downlink else .uplink

/-- The direction to go by, and whether it is a guess. -/
def settleDirection (p : Packet) : Direction × Bool :=
  if p.direction = .unknown then (guessDirection p, true) else (p.direction, false)

/-- Sessions in the order of their first packets, with the place of the latest one between two
endpoints and the names known for addresses. -/
structure Grouping where
  sessions : List Session
  connections : Table SessionKey Nat
  flows : Table SessionKey Nat
  names : Table IpAddress String

namespace Grouping

def empty : Grouping := ⟨[], [], [], []⟩

def index (g : Grouping) : TransportKind → Table SessionKey Nat
  | .tcp => g.connections
  | .udp => g.flows

/-- Whether a packet belongs to the connection that has been open so far. -/
def continuesSession (s : Session) (p : Packet) (d : Direction) : Bool :=
  match p.tcp? with
  | none => true
  | some info =>
    !(d = .uplink ∧ info.flags.isOpening) || s.baseSeq.uplink = some info.seq

/-- Whether a packet asks again for the connection that is open. -/
def repeatsOpening (s : Session) (p : Packet) (d : Direction) : Bool :=
  match p.tcp? with
  | none => false
  | some info =>
    d = .uplink && info.flags.isOpening && s.baseSeq.uplink = some info.seq && !s.packets.isEmpty

/-- Push a packet, reporting a guessed direction. -/
def enter (p : Packet) (d : Direction) (guessed : Bool) (s : Session) : Session :=
  let pushed := s.push { SessionPacket.of p d with handshakeRetransmit := repeatsOpening s p d }
  if guessed then
    { pushed with
      diagnostics := pushed.diagnostics ++ [.indeterminateDirection s.packets.length d] }
  else pushed

/-- Begin a session and enter its place in the index. -/
def openSession (g : Grouping) (key : SessionKey) (kind : TransportKind) : Grouping × Nat :=
  let place := g.sessions.length
  let g := { g with sessions := g.sessions ++ [Session.new key kind] }
  match kind with
  | .tcp => ({ g with connections := g.connections.put key place }, place)
  | .udp => ({ g with flows := g.flows.put key place }, place)

def learnNames (g : Grouping) (p : Packet) : Grouping :=
  match p.dns with
  | some answer =>
    { g with names := answer.addresses.foldl (fun names a => names.put a answer.domain) g.names }
  | none => g

/-- The session that a packet goes on, if it does not begin one. -/
def target? (g : Grouping) (p : Packet) (d : Direction) : Option Nat :=
  ((g.index p.kind).get? p.key).filter fun i => g.sessions[i]?.any (continuesSession · p d)

def add (g : Grouping) (p : Packet) : Grouping :=
  let (d, guessed) := settleDirection p
  let g := g.learnNames p
  let (g, place) :=
    match g.target? p d with
    | some place => (g, place)
    | none => g.openSession p.key p.kind
  { g with sessions := g.sessions.modify place (enter p d guessed) }

end Grouping

/-- The sessions of a capture, with the names that its name server answers give their remote
sides. -/
def groupPackets (ps : List Packet) : List Session :=
  let g := ps.foldl Grouping.add .empty
  g.sessions.map fun s => { s with remoteHost := s.remoteHost <|> g.names.get? s.key.remoteAddr }

end HttpCapture
