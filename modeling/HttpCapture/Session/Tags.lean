import HttpCapture.Session.Basic

/-! Tags for TCP packets, in four passes. The first tags data and control packets, the second what
only acknowledges, the third closed windows. The last one marks the packets that end a loss: data at
a number the other side had acknowledged twice, and acknowledgements of data the other side had sent
twice. -/

namespace HttpCapture

/-- Direction as far as tags go: all that does not travel down is one side. -/
def Direction.side : Direction → Direction
  | .downlink => .downlink
  | _ => .uplink

namespace SessionPacket

def hasData (p : SessionPacket) : Bool := !p.packet.payload.isEmpty

/-- Carries neither data nor a flag that opens, closes or resets. -/
def isBare (p : SessionPacket) (info : TcpInfo) : Bool := !p.hasData && !info.flags.isControl

end SessionPacket

/-- The tag of a packet that is not bare, and the numbers at which each side has sent data. -/
def baseTag (seen : Sides (List UInt32)) (p : SessionPacket) (info : TcpInfo) :
    Option TcpTag × Sides (List UInt32) :=
  let d := p.direction.side
  if info.flags.rst then (some .reset, seen)
  else if info.flags.syn then (some .establish, seen)
  else if info.flags.fin then (some .close, seen)
  else if p.hasData then
    if (seen.get d).contains info.seq then (some .dataDup, seen)
    else (some .data, seen.modify d (info.seq :: ·))
  else (none, seen)

/-- Tag handshakes, closes and data. -/
def baseTags (seen : Sides (List UInt32)) : List SessionPacket → List (Option TcpTag)
  | [] => []
  | p :: ps =>
    match p.packet.tcp? with
    | none => none :: baseTags seen ps
    | some info =>
      let (tag, seen) := baseTag seen p info
      tag :: baseTags seen ps

/-- What tells two acknowledgements of one number apart: the flags other than ACK. -/
def ackKey (info : TcpInfo) : UInt32 × TcpFlags := (info.ack, { info.flags with ack := false })

/-- The acknowledgements of each side. -/
structure AckHistory where
  /-- The window last sent with each acknowledgement, the latest first. -/
  windows : Sides (List ((UInt32 × TcpFlags) × UInt16))
  /-- Sequence numbers just before an acknowledged one, at which the other side may probe. -/
  probes : Sides (List UInt32)

namespace AckHistory

def empty : AckHistory := ⟨.both [], .both []⟩

/-- The tag of a bare packet and the history with it. -/
def step (h : AckHistory) (d : Direction) (info : TcpInfo) : TcpTag × AckHistory :=
  let d := d.side
  let byWindow :=
    match (h.windows.get d).lookup (ackKey info) with
    | none => .ack
    | some w => if w = info.window then .ackDup else .windowUpdate
  let tag := if (h.probes.get d.opposite).contains info.seq then .keepAlive else byWindow
  (tag, ⟨h.windows.modify d ((ackKey info, info.window) :: ·),
    h.probes.modify d ((info.ack - 1) :: ·)⟩)

end AckHistory

/-- Tag the bare packets by the acknowledgements before them. -/
def classifyAcks (h : AckHistory) : List (SessionPacket × Option TcpTag) → List (Option TcpTag)
  | [] => []
  | (p, tag) :: rest =>
    match p.packet.tcp? with
    | none => tag :: classifyAcks h rest
    | some info =>
      if p.isBare info then
        let (tag, h) := h.step p.direction info
        some tag :: classifyAcks h rest
      else tag :: classifyAcks h rest

/-- Tag the bare packets that close the window. -/
def detectZeroWindow (tagged : List (SessionPacket × Option TcpTag)) : List (Option TcpTag) :=
  tagged.map fun (p, tag) =>
    if p.packet.tcp?.any fun info => p.isBare info && info.window == 0 then some .zeroWindow
    else tag

/-- The tags before the ends of losses are marked. -/
def plainTags (ps : List SessionPacket) : List (Option TcpTag) :=
  let tags := baseTags (.both []) ps
  let tags := classifyAcks .empty (ps.zip tags)
  detectZeroWindow (ps.zip tags)

/-- Losses seen on each side that nothing has ended yet. -/
structure Losses where
  /-- Ends of data sent twice. -/
  data : Sides (List UInt32)
  /-- Numbers acknowledged twice. -/
  acks : Sides (List UInt32)

namespace Losses

def empty : Losses := ⟨.both [], .both []⟩

/-- The final tag of a packet and the losses that remain. -/
def step (l : Losses) (d : Direction) (info : TcpInfo) (length : Nat) (tag : TcpTag) :
    TcpTag × Losses :=
  let d := d.side
  let other := d.opposite
  match tag with
  | .dataDup =>
    let stop := info.seq + UInt32.ofNat length
    (tag, { l with data := l.data.modify d fun s => if s.contains stop then s else stop :: s })
  | .ackDup =>
    (tag, { l with acks := l.acks.modify d fun s =>
      if s.contains info.ack then s else info.ack :: s })
  | .data =>
    if (l.acks.get other).contains info.seq then
      (.dataRecover, { l with acks := l.acks.modify other (·.filter (· != info.seq)) })
    else (tag, l)
  | .ack =>
    if (l.data.get other).contains info.ack then
      (.ackRecover, { l with data := l.data.modify other (·.filter (· != info.ack)) })
    else (tag, l)
  | _ => (tag, l)

end Losses

/-- Mark the ends of losses. -/
def recoveryTags (l : Losses) : List (SessionPacket × Option TcpTag) → List (Option TcpTag)
  | [] => []
  | (p, tag) :: rest =>
    match p.packet.tcp?, tag with
    | some info, some tag =>
      let (tag, l) := l.step p.direction info p.packet.length tag
      some tag :: recoveryTags l rest
    | _, _ => tag :: recoveryTags l rest

/-- The tags of a run of packets. -/
def tcpTags (ps : List SessionPacket) : List (Option TcpTag) :=
  recoveryTags .empty (ps.zip (plainTags ps))

/-- Tag the packets of a connection; a datagram flow stays as it is. -/
def Session.annotate (s : Session) : Session :=
  if s.isTcp then
    { s with packets := s.packets.zipWith (fun p tag => { p with tag := tag }) (tcpTags s.packets) }
  else s

end HttpCapture
