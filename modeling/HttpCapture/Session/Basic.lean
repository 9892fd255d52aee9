import HttpCapture.Capture.Packet
import HttpCapture.Exchange.Basic
import HttpCapture.Session.SeqIndex
import HttpCapture.Session.Stream

/-! Sessions: the packets of one connection or of one datagram flow, with the indexes that grow as
packets are pushed, and what is later found in them. -/

namespace HttpCapture

/-- The two endpoints of a session. -/
structure SessionKey where
  localAddr : IpAddress
  localPort : UInt16
  remotePort : UInt16
  remoteAddr : IpAddress
  deriving DecidableEq, Repr

def Packet.key (p : Packet) : SessionKey := ⟨p.localAddr, p.localPort, p.remotePort, p.remoteAddr⟩

inductive TransportKind
  | tcp
  | udp
  deriving DecidableEq, Repr

def TransportKind.name : TransportKind → String
  | .tcp => "tcp"
  | .udp => "udp"

def Packet.kind (p : Packet) : TransportKind :=
  match p.transport with
  | .tcp _ => .tcp
  | .udp => .udp

/-- The role of a TCP packet in its session. -/
inductive TcpTag
  | establish
  | close
  | reset
  | data
  | dataDup
  | dataRecover
  | ack
  | ackDup
  | ackRecover
  | windowUpdate
  | keepAlive
  | zeroWindow
  deriving DecidableEq, Repr

def TcpTag.name : TcpTag → String
  | .establish => "establish"
  | .close => "close"
  | .reset => "reset"
  | .data => "data"
  | .dataDup => "data_dup"
  | .dataRecover => "data_recover"
  | .ack => "ack"
  | .ackDup => "ack_dup"
  | .ackRecover => "ack_recover"
  | .windowUpdate => "window_update"
  | .keepAlive => "keep_alive"
  | .zeroWindow => "zero_window"

/-- A packet within a session. -/
structure SessionPacket where
  packet : Packet
  /-- The direction the session goes by, guessed when the capture has none. -/
  direction : Direction
  tag : Option TcpTag
  /-- A repeated request for the connection that is already open. -/
  handshakeRetransmit : Bool
  deriving DecidableEq, Repr

def SessionPacket.of (p : Packet) (d : Direction) : SessionPacket := ⟨p, d, none, false⟩

inductive TerminationKind
  | fin
  | rst
  deriving DecidableEq, Repr

def TerminationKind.name : TerminationKind → String
  | .fin => "fin"
  | .rst => "rst"

/-- How a connection ended. -/
structure Termination where
  packet : Nat
  kind : TerminationKind
  /-- Seconds since the packet before. -/
  sincePrevious : Float

inductive SessionDiagnostic
  | withoutPackets
  | indeterminateDirection (packet : Nat) (assumed : Direction)
  deriving DecidableEq, Repr

def SessionDiagnostic.message : SessionDiagnostic → String
  | .withoutPackets => "session has no packets"
  | .indeterminateDirection packet assumed =>
    "direction of packet " ++ toString packet ++ " was indeterminate, assumed " ++ assumed.title

structure Session where
  key : SessionKey
  transport : TransportKind
  remoteHost : Option String
  /-- All packets in capture order; the indexes below refer to places in this list. -/
  packets : List SessionPacket
  order : Sides (List Nat)
  seqs : Sides SeqIndex
  /-- Acknowledgement numbers that packets of each direction carry. -/
  acks : Sides AckSet
  baseSeq : Sides (Option UInt32)
  ssl : Bool
  decrypted : Bool
  termination : Option Termination
  openingTimes : List Timestamp
  acceptingTimes : List Timestamp
  streams : Sides StreamBuffer
  exchanges : List Exchange
  diagnostics : List SessionDiagnostic

namespace Session

def new (key : SessionKey) (transport : TransportKind) : Session where
  key := key
  transport := transport
  remoteHost := none
  packets := []
  order := .both []
  seqs := .both []
  acks := .both []
  baseSeq := .both none
  ssl := false
  decrypted := false
  termination := none
  openingTimes := []
  acceptingTimes := []
  streams := .both .empty
  exchanges := []
  diagnostics := []

def isTcp (s : Session) : Bool := s.transport = .tcp

/-- How the packet pushed next would end the connection. -/
def ending (s : Session) (p : SessionPacket) (flags : TcpFlags) : Termination where
  packet := s.packets.length
  kind := if flags.rst then .rst else .fin
  sincePrevious :=
    match s.packets.getLast? with
    | some previous => p.packet.timestamp.since previous.packet.timestamp
    | none => 0

/-- Enter the transport header of the packet pushed next into the indexes. -/
def pushTcp (s : Session) (p : SessionPacket) (info : TcpInfo) : Session :=
  let d := p.direction
  let flags := info.flags
  { s with
    seqs := s.seqs.modify d (SeqIndex.add info.seq s.packets.length)
    acks := s.acks.modify d fun a => if flags.ack then a.insert info.ack else a
    baseSeq := s.baseSeq.modify d fun b => b <|> some info.seq
    openingTimes := s.openingTimes ++
      if flags.isOpening ∧ d = .uplink then [p.packet.timestamp] else []
    acceptingTimes := s.acceptingTimes ++
      if flags.syn ∧ flags.ack ∧ d = .downlink then [p.packet.timestamp] else []
    termination := s.termination <|>
      if flags.fin ∨ flags.rst then some (s.ending p flags) else none }

/-- Add a packet at the end. -/
def push (s : Session) (p : SessionPacket) : Session :=
  let indexed := match p.packet.tcp? with
    | some info => s.pushTcp p info
    | none => s
  { indexed with
    ssl := s.ssl || p.packet.tlsRecord.isSome
    decrypted := s.decrypted || p.packet.decrypted
    order := s.order.modify p.direction (· ++ [s.packets.length])
    packets := s.packets ++ [p] }

/-- Seconds from the opening packet to its acceptance. The opening packet is the one of the same
moment, or else the last one before. -/
def latency (s : Session) : Option Float := do
  let accepted ← s.acceptingTimes.head?
  let reference ←
    if s.openingTimes.any fun t => t.toFloat == accepted.toFloat then some accepted
    else (s.openingTimes.filter fun t => t.toFloat < accepted.toFloat).getLast?
  return accepted.since reference

def startTime (s : Session) : Option Timestamp := s.packets.head?.map (·.packet.timestamp)

def endTime (s : Session) : Option Timestamp := s.packets.getLast?.map (·.packet.timestamp)

def packetTime (s : Session) (i : Nat) : Timestamp :=
  (s.packets[i]?.map (·.packet.timestamp)).getD .zero

/-- Total payload of a direction. -/
def payloadBytes (s : Session) (d : Direction) : Nat :=
  ((s.order.get d).map fun i => (s.packets[i]?.map (·.packet.length)).getD 0).foldr (· + ·) 0

def stream (s : Session) (d : Direction) : StreamBuffer := s.streams.get d

end Session

end HttpCapture
