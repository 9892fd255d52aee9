import HttpCapture.Capture.Packet
import HttpCapture.Coding.Base64
import HttpCapture.Json.Value

/-! The written form of a packet, a JSON object whose members stand in a fixed order. -/

namespace HttpCapture

def IpAddress.toJson (a : IpAddress) : Json := .str (String.ofList a.text)

def Timestamp.toJson (t : Timestamp) : Json := .float t.bits

def Direction.toJson (d : Direction) : Json := .str d.name

def TcpFlags.toJson (f : TcpFlags) : Json :=
  .obj [("syn", .bool f.syn), ("ack", .bool f.ack), ("fin", .bool f.fin), ("rst", .bool f.rst),
    ("psh", .bool f.psh), ("urg", .bool f.urg)]

/-- The members that describe a TCP header. -/
def TcpInfo.members (i : TcpInfo) : List (String × Json) :=
  [("seq", .nat i.seq.toNat), ("ack", .nat i.ack.toNat), ("flags", i.flags.toJson),
    ("window", .nat i.window.toNat)]

def Transport.toJson : Transport → Json
  | .tcp info => .obj (("kind", .str "tcp") :: info.members)
  | .udp => .obj [("kind", .str "udp")]

def DnsAnswer.toJson (a : DnsAnswer) : Json :=
  .obj [("domain", .str a.domain), ("addresses", .list IpAddress.toJson a.addresses)]

/-- What the capture knows of the payload is written only when it knows something. -/
def Packet.toJson (p : Packet) : Json :=
  .obj <|
    [("timestamp", p.timestamp.toJson), ("direction", p.direction.toJson),
      ("local_addr", p.localAddr.toJson), ("local_port", .nat p.localPort.toNat),
      ("remote_addr", p.remoteAddr.toJson), ("remote_port", .nat p.remotePort.toNat),
      ("transport", p.transport.toJson),
      ("payload", .str (String.ofList (Base64.encode p.payload)))] ++
    (p.tlsRecord.map fun r => ("tls_record", Json.str r.name)).toList ++
    (p.dns.map fun a => ("dns", a.toJson)).toList ++
    [("decrypted", .bool p.decrypted)]

end HttpCapture
