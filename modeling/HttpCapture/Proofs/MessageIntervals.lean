import HttpCapture.Proofs.CutStreams

/-! Which bytes of a stream its messages take. A message takes its head, which keeps within
the limit, and the bytes right behind it that are its body. The next message starts where
it ends, or else at a later segment. Reading takes no more rounds than the stream has
bytes, whatever these are. -/

namespace HttpCapture

section Heads

variable {limit : Nat} {bs : Bytes}

theorem HeaderBlock.addLine_eq_truncated {block : HeaderBlock} {field : Option Field}
    {lineSize : Nat} {fields : Fields} (h : block.addLine field lineSize = .truncated fields) :
    ∃ fields', block = .truncated fields' := by
  cases block with
  | complete => cases h
  | truncated fields' => exact ⟨fields', rfl⟩
  | oversized => cases h

theorem readHeaderLines_size_le {size : Nat} {rest : Bytes} {fields : Fields}
    (h : readHeaderLines limit bs = .complete fields size rest) : size ≤ limit := by
  fun_induction readHeaderLines limit bs generalizing fields size rest with
  | case1 => cases h
  | case2 => cases h
  | case3 limit bs l hl =>
    obtain ⟨-, rfl, -⟩ := HeaderBlock.complete.inj h
    exact (lineWithin?_eq_some hl).2
  | case4 limit bs l hl htext ih =>
    obtain ⟨_, _, hblock, rfl⟩ := HeaderBlock.addLine_eq_complete h
    have hline := (lineWithin?_eq_some hl).2
    have hlines := ih hblock
    omega

theorem length_le_of_truncated {fields : Fields}
    (h : readHeaderLines limit bs = .truncated fields) : bs.length ≤ limit := by
  fun_induction readHeaderLines limit bs generalizing fields with
  | case1 limit bs hnone hle => exact hle
  | case2 => cases h
  | case3 => cases h
  | case4 limit bs l hl htext ih =>
    obtain ⟨_, hblock⟩ := HeaderBlock.addLine_eq_truncated h
    obtain ⟨hline, hfits⟩ := lineWithin?_eq_some hl
    have hlength := firstLine?_length hline
    have hrest := ih hblock
    omega

theorem exists_readHeaderLines {head : Head} (h : readHead? limit bs = some head) :
    ∃ l, lineWithin? limit bs = some l ∧ head.lineSize = l.size ∧
      head.block = readHeaderLines (limit - l.size) l.rest := by
  obtain ⟨l, hl, hread⟩ := Option.bind_eq_some_iff.mp h
  obtain ⟨_, -, rfl⟩ := Option.map_eq_some_iff.mp hread
  exact ⟨l, hl, rfl, rfl⟩

theorem readHead?_size_le {lineSize size : Nat} {rest : Bytes} {startLine : StartLine}
    {fields : Fields}
    (h : readHead? limit bs = some ⟨startLine, lineSize, .complete fields size rest⟩) :
    lineSize + size ≤ limit := by
  obtain ⟨l, hl, rfl, hblock⟩ := exists_readHeaderLines h
  have hline := (lineWithin?_eq_some hl).2
  have hlines := readHeaderLines_size_le hblock.symm
  omega

theorem length_le_of_readHead? {lineSize : Nat} {startLine : StartLine} {fields : Fields}
    (h : readHead? limit bs = some ⟨startLine, lineSize, .truncated fields⟩) :
    0 < bs.length ∧ bs.length ≤ limit := by
  obtain ⟨l, hl, -, hblock⟩ := exists_readHeaderLines h
  obtain ⟨hline, hfits⟩ := lineWithin?_eq_some hl
  have hlength := firstLine?_length hline
  have hsize := firstLine?_size_pos hline
  have hlines := length_le_of_truncated hblock.symm
  omega

end Heads

namespace Reading

variable {r : Reading}

/-- A message with a head and a body of these sizes at this place. -/
structure Takes (r : Reading) (place headSize bodySize : Nat) (e : Exchange) : Prop where
  headOffset : e.headOffset = place
  headLength : e.headLength = headSize
  body : e.body = BodySegments.insert [] (place + headSize) bodySize
  wireBytes : e.wireBytes = headSize + bodySize
  firstPacket : e.firstPacket = r.stream.packetAt place
  lastPacket : e.lastPacket = r.stream.packetAt (max (place + (headSize + bodySize) - 1) place)

section

variable {place headSize bodySize : Nat} {startLine : StartLine} {fields : Fields} {e : Exchange}

theorem Takes.checkContent (h : r.Takes place headSize bodySize e) :
    r.Takes place headSize bodySize (r.checkContent e) := by
  rcases r.checkContent_eq e with heq | ⟨reason, heq⟩ <;> rw [heq]
  · exact h
  · exact ⟨h.headOffset, h.headLength, h.body, h.wireBytes, h.firstPacket, h.lastPacket⟩

theorem takes_wholeMessage {bs : Bytes} {answersHead : Bool}
    (h : r.wholeMessage place headSize startLine fields bs answersHead = (e, bodySize)) :
    r.Takes place headSize bodySize e := by
  let start := { r.begin place startLine with fields := fields, headLength := headSize }
  obtain ⟨_, _, hfields⟩ := start.readFields_eq
  obtain ⟨_, _, _, hread⟩ := r.exists_readBody_eq start (place + headSize) bs answersHead
  obtain ⟨rfl, rfl⟩ := Prod.mk.inj h
  refine Takes.checkContent ⟨?_, ?_, ?_, rfl, rfl, rfl⟩
  · exact (r.begins_begin place startLine fields headSize true).readBody _ _ _ |>.headOffset
  · exact (congrArg Exchange.headLength hread).trans (congrArg Exchange.headLength hfields)
  · exact r.body_readBody start (place + headSize) bs answersHead

theorem takes_cutMessage (r : Reading) (place available : Nat) (startLine : StartLine)
    (fields : Fields) : r.Takes place available 0 (r.cutMessage place available startLine fields) :=
  Takes.checkContent ⟨rfl, rfl, rfl, rfl, rfl, rfl⟩

end

/-- The bytes of the stream that a message takes, and the packets they came from. -/
structure Occupies (r : Reading) (e : Exchange) : Prop where
  head_pos : 0 < e.headLength
  head_le : e.headLength ≤ r.limits.maxHead
  body : e.body = [] ∨ ∃ size, 0 < size ∧ e.body = [(e.headOffset + e.headLength, size)]
  wireBytes : e.wireBytes = e.headLength + e.body.total
  inside : e.headOffset + e.wireBytes ≤ r.stream.length
  first : r.stream.CameFrom e.headOffset e.firstPacket
  last : r.stream.CameFrom (e.headOffset + e.wireBytes - 1) e.lastPacket

theorem Takes.occupies {place headSize bodySize : Nat} {e : Exchange}
    (h : r.Takes place headSize bodySize e) {ps : List Piece} (hstream : r.stream = .ofPieces ps)
    (hpos : 0 < headSize) (hle : headSize ≤ r.limits.maxHead)
    (hinside : place + (headSize + bodySize) ≤ r.stream.length) : r.Occupies e := by
  have hfrom {offset : Nat} (hlt : offset < r.stream.length) :
      r.stream.CameFrom offset (r.stream.packetAt offset) := by
    rw [hstream] at hlt ⊢
    exact StreamBuffer.cameFrom_packetAt hlt
  obtain ⟨hplace, hhead, hbody, hwire, hfirst, hlast⟩ := h
  have hend : max (place + (headSize + bodySize) - 1) place =
      place + (headSize + bodySize) - 1 := by
    omega
  rw [hend] at hlast
  constructor
  · rwa [hhead]
  · rwa [hhead]
  · rw [hbody, hplace, hhead, BodySegments.insert]
    split
    · exact .inl rfl
    · exact .inr ⟨bodySize, by omega, rfl⟩
  · rw [hwire, hhead, hbody, BodySegments.insert]
    split <;> simp [BodySegments.total, BodySegments.put, *]
  · rwa [hplace, hwire]
  · rw [hplace, hfirst]
    exact hfrom (by omega)
  · rw [hplace, hwire, hlast]
    exact hfrom (by omega)

/-- Messages that lie in the stream from a place on: each starts where the one before it ends, the
first one at this place, or else at a later segment. -/
inductive LiesFrom (r : Reading) : Nat → List Exchange → Prop
  | nil {place} : LiesFrom r place []
  | cons {place e es} (hplace : place ≤ e.headOffset)
      (hstart : e.headOffset = place ∨ r.stream.StartsSegment e.headOffset) (he : r.Occupies e)
      (h : LiesFrom r (e.headOffset + e.wireBytes) es) : LiesFrom r place (e :: es)

theorem LiesFrom.skip {pos place : Nat} {es : List Exchange} (h : r.LiesFrom place es)
    (hle : pos ≤ place) (hstart : r.stream.StartsSegment place) : r.LiesFrom pos es := by
  cases h with
  | nil => exact .nil
  | cons hplace hfirst he hrest =>
    refine .cons (Nat.le_trans hle hplace) (.inr ?_) he hrest
    rcases hfirst with hfirst | hfirst
    · rwa [hfirst]
    · exact hfirst

theorem Cuts.liesFrom {ps : List Piece} (hstream : r.stream = .ofPieces ps) {pos : Nat} {bs : Bytes}
    {methods : List String} {es : List Exchange} (h : r.Cuts pos bs methods es)
    (hbs : bs = r.stream.bytes.drop pos) : r.LiesFrom pos es := by
  induction h with
  | done => exact .nil
  | @skip pos bs methods es hne hhead hrest ih =>
    cases hnext : r.stream.nextBoundary pos with
    | none =>
      have hall : r.gap pos bs = bs.length := by rw [gap, hnext]
      rw [hall, List.drop_length] at hrest
      rw [hrest.eq_nil List.not_mem_nil]
      exact .nil
    | some place =>
      have hlt := StreamBuffer.lt_nextBoundary hnext
      have hstart := StreamBuffer.startsSegment_nextBoundary hnext
      have hplace : pos + r.gap pos bs = place := by
        rw [gap_of_nextBoundary hnext]
        omega
      have hafter : bs.drop (r.gap pos bs) = r.stream.bytes.drop place := by
        rw [← hplace, ← List.drop_drop, ← hbs]
      exact (hplace ▸ ih (hplace ▸ hafter)).skip (Nat.le_of_lt hlt) hstart
  | @cut pos bs methods startLine lineSize fields hhead =>
    obtain ⟨hpos, hle⟩ := length_le_of_readHead? hhead
    have hlen := congrArg List.length hbs
    rw [List.length_drop] at hlen
    have htakes := r.takes_cutMessage pos bs.length startLine fields
    have hplace := htakes.headOffset
    refine .cons (Nat.le_of_eq hplace.symm) (.inl hplace) (htakes.occupies hstream hpos hle ?_) .nil
    rw [StreamBuffer.length]
    omega
  | @whole pos bs methods startLine lineSize fields size rest e bodySize es hhead
      hmessage hrest ih =>
    have hline := (readHead?_eq_some hhead).1
    have hsize := readHead?_size hhead
    have hbody := (wireBytes_wholeMessage hmessage).2
    have hlen := congrArg List.length hbs
    rw [List.length_drop] at hlen
    have htakes := takes_wholeMessage hmessage
    have hplace := htakes.headOffset
    dsimp only at hline
    refine .cons (Nat.le_of_eq hplace.symm) (.inl hplace)
      (htakes.occupies hstream (by omega) (readHead?_size_le hhead) ?_) ?_
    · rw [StreamBuffer.length]
      omega
    · rw [hplace, htakes.wireBytes]
      exact ih (by rw [hbs, List.drop_drop])

theorem LiesFrom.le {place : Nat} {es : List Exchange} (h : r.LiesFrom place es) :
    ∀ e ∈ es, place ≤ e.headOffset := by
  induction h with
  | nil => simp
  | cons hplace _ _ _ ih =>
    refine List.forall_mem_cons.mpr ⟨hplace, fun f hf => ?_⟩
    have := ih f hf
    omega

theorem LiesFrom.occupies {place : Nat} {es : List Exchange} (h : r.LiesFrom place es) :
    ∀ e ∈ es, r.Occupies e := by
  induction h with
  | nil => simp
  | cons _ _ he _ ih => exact List.forall_mem_cons.mpr ⟨he, ih⟩

theorem LiesFrom.ascending {place : Nat} {es : List Exchange} (h : r.LiesFrom place es) :
    es.Pairwise fun a b => a.headOffset + a.wireBytes ≤ b.headOffset := by
  induction h with
  | nil => exact .nil
  | cons _ _ _ hrest ih => exact .cons hrest.le ih

theorem LiesFrom.head {place : Nat} {es : List Exchange} (h : r.LiesFrom place es) :
    ∀ e ∈ es.head?, e.headOffset = place ∨ r.stream.StartsSegment e.headOffset := by
  intro e he
  cases h with
  | nil => cases he
  | cons _ hstart =>
    obtain rfl := Option.some.inj he
    exact hstart

theorem LiesFrom.isChain {place : Nat} {es : List Exchange} (h : r.LiesFrom place es) :
    es.IsChain fun a b => b.headOffset = a.headOffset + a.wireBytes ∨
      r.stream.StartsSegment b.headOffset := by
  induction h with
  | nil => exact .nil
  | cons _ _ _ hrest ih =>
    cases hrest with
    | nil => exact .singleton _
    | cons _ hstart => exact .cons_cons hstart ih

/-- Reading by places, within a number of rounds. A round finds a message or goes on to the next
segment; it does not ask whether this gets ahead. -/
def messagesWithin? (r : Reading) : Nat → Nat → List String → Option (List Exchange)
  | 0, pos, _ => if r.stream.length ≤ pos then some [] else none
  | rounds + 1, pos, methods =>
    if r.stream.length ≤ pos then some []
    else
      let next := (r.stream.nextBoundary pos).getD r.stream.length
      match r.headAt? pos with
      | none => r.messagesWithin? rounds next methods
      | some head =>
        match head.block with
        | .oversized => r.messagesWithin? rounds next methods
        | .truncated fields =>
          some [r.cutMessage pos (r.stream.length - pos) head.startLine fields]
        | .complete fields size rest =>
          let (e, bodySize) := r.wholeMessage pos (head.lineSize + size) head.startLine fields rest
            (answersHead head.startLine methods)
          (r.messagesWithin? rounds (pos + (head.lineSize + size + bodySize))
            (remaining head.startLine methods)).map (e :: ·)

theorem exists_round {pos rounds : Nat} {bs : Bytes} (hbs : bs = r.stream.bytes.drop pos)
    (hpos : 0 < bs.length) (hrounds : bs.length ≤ rounds) :
    (∃ n, rounds = n + 1) ∧ ¬r.stream.length ≤ pos ∧ bs.length = r.stream.length - pos := by
  have hlen := congrArg List.length hbs
  rw [List.length_drop, ← StreamBuffer.length] at hlen
  exact ⟨⟨rounds - 1, by omega⟩, by omega, hlen⟩

theorem nextBoundary_getD {pos : Nat} {bs : Bytes} (hlen : bs.length = r.stream.length - pos)
    (hpos : pos ≤ r.stream.length) :
    (r.stream.nextBoundary pos).getD r.stream.length = pos + r.gap pos bs := by
  unfold gap
  cases hnext : r.stream.nextBoundary pos with
  | none =>
    dsimp only [Option.getD_none]
    omega
  | some place =>
    have hlt := StreamBuffer.lt_nextBoundary hnext
    dsimp only [Option.getD_some]
    omega

theorem Cuts.within {pos : Nat} {bs : Bytes} {methods : List String} {es : List Exchange}
    (h : r.Cuts pos bs methods es) (hbs : bs = r.stream.bytes.drop pos) {rounds : Nat}
    (hrounds : bs.length ≤ rounds) : r.messagesWithin? rounds pos methods = some es := by
  induction h generalizing rounds with
  | done =>
    have hend := List.drop_eq_nil_iff.mp hbs.symm
    cases rounds <;> exact if_pos hend
  | @skip pos bs methods es hne hhead hrest ih =>
    obtain ⟨⟨rounds, rfl⟩, hinside, hlen⟩ := exists_round hbs (List.length_pos_iff.mpr hne) hrounds
    have hgap := r.gap_pos pos hne
    rw [messagesWithin?, if_neg hinside, nextBoundary_getD hlen (by omega), headAt?, ← hbs,
      ← ih (by rw [hbs, List.drop_drop]) (show _ ≤ rounds by rw [List.length_drop]; omega)]
    cases hread : readHead? r.limits.maxHead bs with
    | none => rfl
    | some head =>
      obtain ⟨startLine, lineSize, block⟩ := head
      obtain rfl : block = .oversized := hhead _ hread
      rfl
  | @cut pos bs methods startLine lineSize fields hhead =>
    obtain ⟨⟨rounds, rfl⟩, hinside, hlen⟩ :=
      exists_round hbs (length_le_of_readHead? hhead).1 hrounds
    rw [messagesWithin?, if_neg hinside, headAt?, ← hbs, hhead, hlen]
  | @whole pos bs methods startLine lineSize fields size rest e bodySize es hhead
      hmessage hrest ih =>
    have hline := (readHead?_eq_some hhead).1
    have hsize := readHead?_size hhead
    dsimp only at hline
    obtain ⟨⟨rounds, rfl⟩, hinside, -⟩ := exists_round hbs (by omega) hrounds
    rw [messagesWithin?, if_neg hinside, headAt?, ← hbs, hhead]
    dsimp only
    rw [hmessage,
      ih (by rw [hbs, List.drop_drop]) (show _ ≤ rounds by rw [List.length_drop]; omega)]
    rfl

end Reading

/-- Reading a stream ends within a round for each of its bytes. The messages found take bytes
of their own in the order of the stream, and each starts where the one before it ends or
where a segment starts. -/
theorem messages_occupy_intervals (r : Reading) (ps : List Piece) (methods : List String) :
    let r := { r with stream := .ofPieces ps }
    let es := r.messages methods
    r.messagesWithin? r.stream.length 0 methods = some es ∧
      (∀ e ∈ es, r.Occupies e) ∧
      (es.Pairwise fun a b => a.headOffset + a.wireBytes ≤ b.headOffset) ∧
      (∀ e ∈ es.head?, e.headOffset = 0 ∨ r.stream.StartsSegment e.headOffset) ∧
      es.IsChain fun a b =>
        b.headOffset = a.headOffset + a.wireBytes ∨ r.stream.StartsSegment b.headOffset := by
  intro r es
  have hcuts : r.Cuts 0 r.stream.bytes methods es := r.cuts_messages methods
  have hlies : r.LiesFrom 0 es := hcuts.liesFrom rfl rfl
  exact ⟨hcuts.within rfl (Nat.le_refl _), hlies.occupies, hlies.ascending, hlies.head,
    hlies.isChain⟩

/-- A message behind a segment that holds none, with a body in two segments,
and one right behind it. -/
theorem messages_occupy_intervals_of_three_segments :
    let r : Reading := ⟨⟨.standard, 40⟩, 0, .uplink, .ofPieces [⟨4, utf8Bytes "?\n"⟩,
      ⟨7, utf8Bytes "POST / HTTP/1.1\r\nContent-Length: 3\r\n\r\nab"⟩,
      ⟨9, utf8Bytes "cGET / HTTP/1.1\r\n\r\n"⟩], fun _ => .zero⟩
    ∃ post get, r.messages [] = [post, get] ∧ r.Occupies post ∧ r.Occupies get ∧
      r.messagesWithin? r.stream.length 0 [] = some [post, get] ∧
      post.headOffset + post.wireBytes ≤ get.headOffset ∧
      (post.headOffset = 0 ∨ r.stream.StartsSegment post.headOffset) ∧
      (get.headOffset = post.headOffset + post.wireBytes ∨ r.stream.StartsSegment get.headOffset) ∧
      (post.headOffset, post.headLength, post.body, post.firstPacket, post.lastPacket) =
        (2, 38, [(40, 3)], some 7, some 9) := by
  intro r
  have hread : (r.messages []).map (fun e => (e.headOffset, e.headLength, e.body, e.firstPacket,
      e.lastPacket)) = [(2, 38, [(40, 3)], some 7, some 9), (43, 18, [], some 9, some 9)] := by
    decide +kernel
  obtain ⟨post, rest, hrun, hpost, hrest⟩ := List.map_eq_cons_iff.mp hread
  obtain ⟨get, last, rfl, -, hlast⟩ := List.map_eq_cons_iff.mp hrest
  obtain rfl := List.map_eq_nil_iff.mp hlast
  obtain ⟨hrounds, hoccupies, hapart, hfirst, hchain⟩ := messages_occupy_intervals r _ []
  have hrun : r.messages [] = [post, get] := hrun
  refine ⟨post, get, hrun, hoccupies post ?_, hoccupies get ?_, ?_, ?_, hfirst post ?_, ?_, hpost⟩
  · exact hrun ▸ List.mem_cons_self
  · exact hrun ▸ List.mem_cons_of_mem _ List.mem_cons_self
  · exact hrun ▸ hrounds
  · exact (List.pairwise_cons.mp (hrun ▸ hapart)).1 get List.mem_cons_self
  · exact congrArg List.head? hrun
  · rw [hrun] at hchain
    exact (List.isChain_cons_cons.mp hchain).1

end HttpCapture
