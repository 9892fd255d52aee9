import HttpCapture.Capture.Address
import HttpCapture.Capture.Timestamp

/-! Captured packets: endpoints, transport header, payload, and what the capture already knows about
the payload. -/

namespace HttpCapture

/-- Which way a packet travels, seen from the local endpoint. -/
inductive Direction
  | uplink
  | downlink
  | unknown
  deriving DecidableEq, Repr

namespace Direction

def opposite : Direction → Direction
  | .uplink => .downlink
  | .downlink => .uplink
  | .unknown => .unknown

def name : Direction → String
  | .uplink => "uplink"
  | .downlink => "downlink"
  | .unknown => "unknown"

/-- The name as running text has it. -/
def title : Direction → String
  | .uplink => "Uplink"
  | .downlink => "Downlink"
  | .unknown => "Unknown"

end Direction

/-- One value for each side of a conversation. Whatever does not travel down counts as travelling
up. -/
structure Sides (α : Type) where
  uplink : α
  downlink : α
  deriving DecidableEq, Repr, Inhabited

namespace Sides

variable {α : Type}

def both (a : α) : Sides α := ⟨a, a⟩

def get (s : Sides α) : Direction → α
  | .downlink => s.downlink
  | _ => s.uplink

def modify (s : Sides α) (d : Direction) (f : α → α) : Sides α :=
  match d with
  | .downlink => { s with downlink := f s.downlink }
  | _ => { s with uplink := f s.uplink }

end Sides

structure TcpFlags where
  syn : Bool
  ack : Bool
  fin : Bool
  rst : Bool
  psh : Bool
  urg : Bool
  deriving DecidableEq, Repr, Inhabited

namespace TcpFlags

/-- The flags in the low six bits of a header byte. -/
def ofBits (bits : UInt8) : TcpFlags :=
  let isSet (mask : UInt8) := bits &&& mask != 0
  ⟨isSet 0x02, isSet 0x10, isSet 0x01, isSet 0x04, isSet 0x08, isSet 0x20⟩

def bits (f : TcpFlags) : UInt8 :=
  (if f.fin then 0x01 else 0) ||| (if f.syn then 0x02 else 0) ||| (if f.rst then 0x04 else 0) |||
    (if f.psh then 0x08 else 0) ||| (if f.ack then 0x10 else 0) ||| (if f.urg then 0x20 else 0)

/-- Opens, closes or resets a connection. -/
def isControl (f : TcpFlags) : Bool := f.syn || f.fin || f.rst

/-- Asks for a new connection. -/
def isOpening (f : TcpFlags) : Bool := f.syn && !f.ack

end TcpFlags

structure TcpInfo where
  seq : UInt32
  ack : UInt32
  flags : TcpFlags
  window : UInt16
  deriving DecidableEq, Repr

inductive Transport
  | tcp (info : TcpInfo)
  | udp
  deriving DecidableEq, Repr

/-- What a TLS record holds. -/
inductive TlsRecord
  | changeCipherSpec
  | alert
  | handshake
  | applicationData
  | heartbeat
  deriving DecidableEq, Repr

namespace TlsRecord

def all : List TlsRecord := [.changeCipherSpec, .alert, .handshake, .applicationData, .heartbeat]

/-- The record kinds are numbered from twenty. -/
def ofByte? (b : UInt8) : Option TlsRecord := if 20 ≤ b then all[(b - 20).toNat]? else none

def name : TlsRecord → String
  | .changeCipherSpec => "change_cipher_spec"
  | .alert => "alert"
  | .handshake => "handshake"
  | .applicationData => "application_data"
  | .heartbeat => "heartbeat"

end TlsRecord

/-- The addresses that a name server gave for a name. -/
structure DnsAnswer where
  domain : String
  addresses : List IpAddress
  deriving DecidableEq, Repr

structure Packet where
  timestamp : Timestamp
  direction : Direction
  localAddr : IpAddress
  localPort : UInt16
  remoteAddr : IpAddress
  remotePort : UInt16
  transport : Transport
  payload : Bytes
  tlsRecord : Option TlsRecord
  dns : Option DnsAnswer
  /-- The capture holds the plain text of an encrypted conversation. -/
  decrypted : Bool
  deriving DecidableEq, Repr

namespace Packet

def tcp? (p : Packet) : Option TcpInfo :=
  match p.transport with
  | .tcp info => some info
  | .udp => none

def length (p : Packet) : Nat := p.payload.length

end Packet

end HttpCapture
