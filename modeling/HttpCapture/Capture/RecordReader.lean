import HttpCapture.Capture.Record
import HttpCapture.Json.Tree

/-! Packets read from their written form. A record is an object with named fields or an array of the
same fields in order. Fields that are not known do not matter; a known one may stand only once. -/

namespace HttpCapture

namespace JsonTree

/-- The value of each named field of a record, none for one that is missing. -/
def fields? (names : List String) : JsonTree → Option (List (Option JsonTree))
  | .obj members =>
    if members.any (·.1.isNone) then none
    else names.mapM fun name =>
      match members.filter (·.1 = some name) with
      | [] => some none
      | [(_, t)] => some (some t)
      | _ => none
  | .arr items =>
    if items.length > names.length then none
    else some (items.map some ++ List.replicate (names.length - items.length) none)
  | _ => none

def string? : JsonTree → Option String
  | .str s => s
  | _ => none

def bool? : JsonTree → Option Bool
  | .bool b => some b
  | _ => none

/-- A whole number below `bound`. -/
def below? (bound : Nat) : JsonTree → Option Nat
  | .number t =>
    match t.value? with
    | some (.whole (.ofNat n)) => if n < bound then some n else none
    | _ => none
  | _ => none

def wholeFloat (n : Int) : Float :=
  if n < 0 then -n.natAbs.toUInt64.toFloat else n.natAbs.toUInt64.toFloat

def timestamp? : JsonTree → Option Timestamp
  | .number t =>
    match t.value? with
    | some (.whole n) => some ⟨(wholeFloat n).toBits⟩
    | some (.float bits) => some ⟨bits⟩
    | none => none
  | _ => none

def address? (t : JsonTree) : Option IpAddress := t.string?.bind fun s => IpAddress.read? s.toList

/-- One of several names, written as such or as the only name of an object with a null. -/
def choice? {α : Type} (options : List (String × α)) : JsonTree → Option α
  | .str s => s.bind (options.lookup ·)
  | .obj [(name, .null)] => name.bind (options.lookup ·)
  | _ => none

def items? : JsonTree → Option (List JsonTree)
  | .arr items => some items
  | _ => none

/-- A field that may be null. -/
def nullable? {α : Type} (f : JsonTree → Option α) : JsonTree → Option (Option α)
  | .null => some none
  | t => (f t).map some

/-- A field that may be missing. -/
def orDefault? {α : Type} (d : α) (f : JsonTree → Option α) : Option JsonTree → Option α
  | none => some d
  | some t => f t

def directions : List (String × Direction) :=
  [Direction.uplink, .downlink, .unknown].map fun d => (d.name, d)

def tlsRecords : List (String × TlsRecord) := TlsRecord.all.map fun r => (r.name, r)

def flagNames : List String := ["syn", "ack", "fin", "rst", "psh", "urg"]

/-- A flag that is not mentioned is not set. -/
def flags? (t : JsonTree) : Option TcpFlags := do
  let [syn, ack, fin, rst, psh, urg] ← (← t.fields? flagNames).mapM (orDefault? false bool?) | none
  return ⟨syn, ack, fin, rst, psh, urg⟩

def tcpInfo? (t : JsonTree) : Option TcpInfo := do
  let [some seq, some ack, some flags, some window] ← t.fields? ["seq", "ack", "flags", "window"]
    | none
  return ⟨(← seq.below? 0x100000000).toUInt32, (← ack.below? 0x100000000).toUInt32, ← flags.flags?,
    (← window.below? 0x10000).toUInt16⟩

/-- A transport header with its kind taken out. -/
def transportOf? (kind : String) (rest : JsonTree) : Option Transport :=
  if kind = "tcp" then rest.tcpInfo?.map .tcp
  else if kind = "udp" then
    match rest with
    | .arr (_ :: _) => none
    | _ => some .udp
  else none

/-- Nesting deeper than this is not read. -/
def maxDepth : Nat := 127

/-- A transport header: an object with a kind, or an array that starts with one. All of it has to
have a meaning, even what is not used. -/
def transport? (t : JsonTree) : Option Transport :=
  if !t.isMeaningful || t.depth + 1 > maxDepth then none
  else
    match t with
    | .obj members =>
      match members.partition (·.1 = some "kind") with
      | ([(_, .str (some kind))], rest) => transportOf? kind (.obj rest)
      | _ => none
    | .arr (.str (some kind) :: rest) => transportOf? kind (.arr rest)
    | _ => none

def dnsAnswer? (t : JsonTree) : Option DnsAnswer := do
  let [some domain, some addresses] ← t.fields? ["domain", "addresses"] | none
  return ⟨← domain.string?, ← (← addresses.items?).mapM address?⟩

def payload? (t : JsonTree) : Option Bytes := t.string?.bind fun s => Base64.decode? s.toList

def packetFields : List String :=
  ["timestamp", "direction", "local_addr", "local_port", "remote_addr", "remote_port", "transport",
   "payload", "tls_record", "dns", "decrypted"]

def packet? (t : JsonTree) : Option Packet := do
  let [some timestamp, direction, some localAddr, some localPort, some remoteAddr, some remotePort,
    some transport, payload, tlsRecord, dns, decrypted] ← t.fields? packetFields | none
  return {
    timestamp := ← timestamp.timestamp?
    direction := ← orDefault? .unknown (choice? directions) direction
    localAddr := ← localAddr.address?
    localPort := (← localPort.below? 0x10000).toUInt16
    remoteAddr := ← remoteAddr.address?
    remotePort := (← remotePort.below? 0x10000).toUInt16
    transport := ← transport.transport?
    payload := ← orDefault? [] payload? payload
    tlsRecord := ← orDefault? none (nullable? (choice? tlsRecords)) tlsRecord
    dns := ← orDefault? none (nullable? dnsAnswer?) dns
    decrypted := ← orDefault? false bool? decrypted }

end JsonTree

end HttpCapture
