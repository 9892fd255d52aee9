import HttpCapture.Session.Basic

/-! The choice between packets that start at the same sequence number. Of several copies the stream
takes the first whose end leads, over zero or more further packets, to a number that the other side
acknowledged; if none does, the copy captured last. -/

namespace HttpCapture

/-- A packet with a payload, by its place in the session. -/
structure Copy where
  packet : Nat
  payload : Bytes
  deriving DecidableEq, Repr

/-- The packets with payload at each sequence number, numbers ascending. -/
abbrev Copies := List (UInt32 × List Copy)

/-- The sequence number after a payload of the given length. -/
def seqAfter (seq : UInt32) (length : Nat) : UInt32 := seq + UInt32.ofNat length

namespace Session

def copy? (s : Session) (i : Nat) : Option Copy :=
  (s.packets[i]?).bind fun p =>
    if p.packet.payload.isEmpty then none else some ⟨i, p.packet.payload⟩

/-- Numbers at which no packet has payload are left out. -/
def copies (s : Session) (d : Direction) : Copies :=
  ((s.seqs.get d).map fun (seq, packets) => (seq, packets.filterMap s.copy?)).filter (!·.2.isEmpty)

end Session

/-- The numbers that one further packet leads to from each sequence number. -/
abbrev Continuations := List (UInt32 × List UInt32)

def Copies.continuations (cs : Copies) : Continuations :=
  cs.map fun (seq, copies) => (seq, copies.map fun c => seqAfter seq c.payload.length)

/-- All continuations but those from `x`. -/
def Continuations.without (next : Continuations) (x : UInt32) : Continuations :=
  next.filter (·.1 != x)

theorem Continuations.length_without_lt {next : Continuations} {x : UInt32} {ys : List UInt32}
    (h : next.lookup x = some ys) : (next.without x).length < next.length := by
  unfold Continuations.without
  induction next with
  | nil => simp at h
  | cons e next ih =>
    obtain ⟨seq, zs⟩ := e
    by_cases hx : x = seq
    · subst hx
      have := List.length_filter_le (fun e : UInt32 × List UInt32 => e.1 != x) next
      simp
      omega
    · have hne : (x == seq) = false := by simpa using hx
      have hne' : (seq != x) = true := by simpa using Ne.symm hx
      simp only [List.lookup_cons, hne] at h
      simpa [List.filter_cons, hne'] using ih h

/-- Whether an acknowledged number can be reached from one of `work`. A number whose continuations
have been looked at is dropped from `next`, so that cycles end. -/
def reachesAck (acks : AckSet) (next : Continuations) (work : List UInt32) : Bool :=
  match work with
  | [] => false
  | x :: rest =>
    if acks.contains x then true
    else
      match _h : next.lookup x with
      | none => reachesAck acks next rest
      | some ys => reachesAck acks (next.without x) (ys ++ rest)
termination_by (next.length, work.length)
decreasing_by
  · exact Prod.Lex.right _ (by simp)
  · exact Prod.Lex.left _ _ (Continuations.length_without_lt _h)

/-- The copy that the stream takes at `seq`. -/
def chooseCopy (acks : AckSet) (next : Continuations) (seq : UInt32) (copies : List Copy) :
    Option Copy :=
  match copies with
  | [] => none
  | [only] => some only
  | _ =>
    (copies.find? fun c => reachesAck acks next [seqAfter seq c.payload.length]) <|>
      copies.getLast?

namespace Session

/-- The copy taken at each sequence number that has one, numbers ascending. -/
def chosen (s : Session) (d : Direction) : List (UInt32 × Copy) :=
  let cs := s.copies d
  let next := cs.continuations
  cs.filterMap fun (seq, copies) =>
    (chooseCopy (s.acks.get d.opposite) next seq copies).map (seq, ·)

/-- The packet taken at `seq`. -/
def resolve (s : Session) (d : Direction) (seq : UInt32) : Option Nat :=
  ((s.chosen d).lookup seq).map (·.packet)

/-- For every sequence number seen, the packet taken there. -/
def resolutions (s : Session) (d : Direction) : List (UInt32 × Option Nat) :=
  let chosen := s.chosen d
  (s.seqs.get d).map fun (seq, _) => (seq, (chosen.lookup seq).map (·.packet))

/-- The packets taken, in sequence. -/
def resolved (s : Session) (d : Direction) : List Nat := (s.chosen d).map (·.2.packet)

/-- The stream of a direction; a datagram flow has none. -/
def buildStream (s : Session) (d : Direction) : StreamBuffer :=
  if s.isTcp then
    .ofPlaced ((s.chosen d).map fun (seq, c) => ⟨c.packet, seq.toNat, c.payload⟩)
  else .empty

end Session

end HttpCapture
