import HttpCapture.Session.Copies

/-! Exchanges of a session whose content stays encrypted. A run of application data one way is an
exchange; it ends where application data flows the other way or a record of another kind is seen. -/

namespace HttpCapture

/-- The packets of one run, the latest first, and their direction. -/
structure RecordRun where
  direction : Direction
  members : List (Nat × SessionPacket)
  deriving DecidableEq, Repr

/-- Runs, the latest first, and whether the latest may go on. -/
structure RecordRuns where
  runs : List RecordRun
  isOpen : Bool
  deriving DecidableEq, Repr

namespace RecordRuns

def empty : RecordRuns := ⟨[], false⟩

/-- Add a packet to the latest run, if it is open and has the packet's direction. -/
def extend? (r : RecordRuns) (i : Nat) (p : SessionPacket) : Option RecordRuns :=
  match r.runs with
  | [] => none
  | run :: runs =>
    if r.isOpen ∧ run.direction = p.direction then
      some { r with runs := { run with members := (i, p) :: run.members } :: runs }
    else none

/-- A packet without a record of its own continues the record before it. -/
def add (r : RecordRuns) (i : Nat) (p : SessionPacket) : RecordRuns :=
  match p.packet.tlsRecord with
  | some .applicationData =>
    (r.extend? i p).getD ⟨⟨p.direction, [(i, p)]⟩ :: r.runs, true⟩
  | none => (r.extend? i p).getD r
  | some _ => { r with isOpen := false }

end RecordRuns

/-- The exchange that a run stands for. -/
def RecordRun.exchange (sessionIndex : Nat) (run : RecordRun) : Exchange :=
  let first := run.members.getLast?
  let last := run.members.head?
  let timeOf (m : Option (Nat × SessionPacket)) :=
    (m.map (·.2.packet.timestamp)).getD Timestamp.zero
  { Exchange.start sessionIndex run.direction .encrypted with
    extractable := false
    firstPacket := first.map (·.1)
    lastPacket := last.map (·.1)
    timestamp := timeOf first
    lastTimestamp := timeOf last
    wireBytes := (run.members.map (·.2.packet.length)).foldr (· + ·) 0 }

namespace Session

/-- The packets that the streams of either direction take, in capture order. -/
def accepted (s : Session) : List (Nat × SessionPacket) :=
  let chosen := s.resolved .uplink ++ s.resolved .downlink
  (s.packets.zipIdx.map fun (p, i) => (i, p)).filter fun (i, p) =>
    !p.packet.payload.isEmpty && chosen.contains i

/-- The runs of application data. -/
def recordRuns (s : Session) : List RecordRun :=
  (s.accepted.foldl (fun r (i, p) => r.add i p) RecordRuns.empty).runs.reverse

def encryptedExchanges (s : Session) (sessionIndex : Nat) : List Exchange :=
  s.recordRuns.map (RecordRun.exchange sessionIndex)

end Session

end HttpCapture
