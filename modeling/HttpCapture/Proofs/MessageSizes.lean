import HttpCapture.Proofs.MessagePlaces
import Mathlib.Algebra.GroupWithZero.Nat

/-! How many bytes messages take. Every reader stays within the bytes it is given, and a message is
read from what the one before it has left, so the messages of a stream share no byte. -/

namespace HttpCapture

theorem trailerLength_le (bs : Bytes) : trailerLength bs ≤ bs.length := by
  fun_induction trailerLength bs with
  | case1 => exact Nat.zero_le _
  | case2 bs l hl =>
    have := firstLine?_length hl
    omega
  | case3 bs l hl htext ih =>
    have := firstLine?_length hl
    omega

theorem chunk_size {bs : Bytes} {l : Line} {n : Nat} {byte : UInt8} {tail : Bytes}
    (hl : firstLine? bs = some l) (hdrop : l.rest.drop n = byte :: tail) :
    l.size + n + 1 + tail.length = bs.length := by
  have hline := firstLine?_length hl
  have hdata := congrArg List.length hdrop
  rw [List.length_drop, List.length_cons] at hdata
  omega

theorem scanChunks_consumed_le (pos : Nat) (bs : Bytes) :
    (scanChunks pos bs).1.consumed ≤ pos + bs.length := by
  fun_induction scanChunks pos bs with
  | case1 => exact Nat.le_add_right _ _
  | case2 => exact Nat.le_add_right _ _
  | case3 pos bs l hl hsize =>
    have hline := firstLine?_length hl
    have htrailer := trailerLength_le l.rest
    dsimp only
    omega
  | case4 pos bs l hl n hsize start hdrop available =>
    have hline := firstLine?_length hl
    simp only [start, available]
    omega
  | case5 pos bs l hl n hsize start head tail hdrop chunk stop k rest hend ih =>
    have hchunk := chunk_size hl hdrop
    have hending := ChunkEnd.length_of hend
    simp only [addChunk, start, stop] at ih ⊢
    omega
  | case6 pos bs l hl n hsize start head tail hdrop chunk stop hend =>
    have hchunk := chunk_size hl hdrop
    simp only [start, stop]
    omega
  | case7 pos bs l hl n hsize start head tail hdrop chunk stop hend =>
    have hchunk := chunk_size hl hdrop
    simp only [start, stop]
    omega

theorem scanChunks_malformed {pos offset : Nat} {bs : Bytes}
    (h : (scanChunks pos bs).2 = .malformed offset) : offset = (scanChunks pos bs).1.consumed := by
  fun_induction scanChunks pos bs with
  | case1 => cases h
  | case2 => exact (ChunkOutcome.malformed.inj h).symm
  | case3 => cases h
  | case4 => cases h
  | case5 pos bs l hl n hsize start head tail hdrop chunk stop k rest hend ih => exact ih h
  | case6 => cases h
  | case7 => exact (ChunkOutcome.malformed.inj h).symm

theorem HeaderBlock.addLine_eq_complete {block : HeaderBlock} {field : Option Field}
    {lineSize size : Nat} {fields : Fields} {rest : Bytes}
    (h : block.addLine field lineSize = .complete fields size rest) :
    ∃ fields' size', block = .complete fields' size' rest ∧ size = lineSize + size' := by
  cases block with
  | complete fields' size' rest' =>
    obtain ⟨-, rfl, rfl⟩ := HeaderBlock.complete.inj h
    exact ⟨fields', size', rfl, rfl⟩
  | truncated => cases h
  | oversized => cases h

theorem readHeaderLines_size {limit size : Nat} {bs rest : Bytes} {fields : Fields}
    (h : readHeaderLines limit bs = .complete fields size rest) :
    size + rest.length = bs.length := by
  fun_induction readHeaderLines limit bs generalizing fields size rest with
  | case1 => cases h
  | case2 => cases h
  | case3 limit bs l hl =>
    obtain ⟨-, rfl, rfl⟩ := HeaderBlock.complete.inj h
    exact firstLine?_length (lineWithin?_eq_some hl).1
  | case4 limit bs l hl htext ih =>
    obtain ⟨fields', size', hblock, rfl⟩ := HeaderBlock.addLine_eq_complete h
    have hline := firstLine?_length (lineWithin?_eq_some hl).1
    have hrest := ih hblock
    omega

theorem readHead?_size {limit lineSize size : Nat} {bs rest : Bytes} {startLine : StartLine}
    {fields : Fields}
    (h : readHead? limit bs = some ⟨startLine, lineSize, .complete fields size rest⟩) :
    lineSize + size + rest.length = bs.length := by
  obtain ⟨l, hl, h⟩ := Option.bind_eq_some_iff.mp h
  obtain ⟨_, -, h⟩ := Option.map_eq_some_iff.mp h
  obtain ⟨-, rfl, hblock⟩ := Head.mk.inj h
  have hline := firstLine?_length (lineWithin?_eq_some hl).1
  have hlines := readHeaderLines_size hblock
  omega

namespace Reading

variable {r : Reading}

theorem readBody_size_le (r : Reading) (e : Exchange) (start : Nat) (bs : Bytes)
    (answersHead : Bool) : (r.readBody e start bs answersHead).2 ≤ bs.length := by
  unfold readBody
  dsimp only
  cases e.readFields.framing answersHead with
  | none => exact Nat.zero_le _
  | untilClose => exact Nat.le_refl _
  | length declared =>
    unfold readLengthBody
    dsimp only
    split <;> exact Nat.min_le_right _ _
  | chunked =>
    have hconsumed := scanChunks_consumed_le 0 bs
    rw [Nat.zero_add] at hconsumed
    unfold readChunkedBody decodeChunks
    dsimp only
    rcases hscan : scanChunks 0 bs with ⟨body, outcome⟩
    rw [hscan] at hconsumed
    cases outcome with
    | complete => exact hconsumed
    | truncated => exact Nat.le_refl _
    | malformed offset =>
      have hoffset := scanChunks_malformed (congrArg (·.2) hscan)
      rw [hscan] at hoffset
      rw [hoffset]
      exact hconsumed

theorem wireBytes_checkContent (r : Reading) (e : Exchange) :
    (r.checkContent e).wireBytes = e.wireBytes := by
  rcases r.checkContent_eq e with heq | ⟨reason, heq⟩ <;> rw [heq]
  rfl

theorem wireBytes_wholeMessage {pos headSize bodySize : Nat} {startLine : StartLine}
    {fields : Fields} {bs : Bytes} {answersHead : Bool} {e : Exchange}
    (h : r.wholeMessage pos headSize startLine fields bs answersHead = (e, bodySize)) :
    e.wireBytes = headSize + bodySize ∧ bodySize ≤ bs.length := by
  have hbytes : (r.wholeMessage pos headSize startLine fields bs answersHead).1.wireBytes =
      headSize + (r.wholeMessage pos headSize startLine fields bs answersHead).2 :=
    r.wireBytes_checkContent _
  have hbody : (r.wholeMessage pos headSize startLine fields bs answersHead).2 ≤ bs.length :=
    r.readBody_size_le _ _ _ _
  rw [h] at hbytes hbody
  exact ⟨hbytes, hbody⟩

/-- Messages of a stream share no byte of it. -/
theorem Cuts.wireBytes_le {pos : Nat} {bs : Bytes} {methods : List String} {es : List Exchange}
    (h : r.Cuts pos bs methods es) : (es.map (·.wireBytes)).sum ≤ bs.length := by
  induction h with
  | done => exact Nat.le_refl _
  | skip _ _ _ ih =>
    rw [List.length_drop] at ih
    omega
  | cut hhead =>
    rw [List.map_singleton, List.sum_singleton, cutMessage, wireBytes_checkContent]
    exact Nat.le_refl _
  | whole hhead hmessage hrest ih =>
    have hhead := readHead?_size hhead
    obtain ⟨hbytes, hbody⟩ := wireBytes_wholeMessage hmessage
    rw [List.length_drop] at ih
    rw [List.map_cons, List.sum_cons]
    omega

theorem wireBytes_messages_le (r : Reading) (methods : List String) :
    ((r.messages methods).map (·.wireBytes)).sum ≤ r.stream.length :=
  (r.cuts_messages methods).wireBytes_le

end Reading

end HttpCapture
