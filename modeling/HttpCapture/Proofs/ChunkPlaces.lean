import HttpCapture.Proofs.PrefixReading

/-! Where the data of chunks lies. However the reading of an input ends, its chunks stand one behind
the other in it, none of them empty, and no place that is reported lies behind its end. A reading by
places alone, with all their arithmetic in 64 bits, comes to the same. Data framed in chunks is put
together again from these places, whatever follows. -/

namespace HttpCapture

/-- The bytes at the places of the chunks. -/
def ChunkedBody.collect (b : ChunkedBody) (input : Bytes) : Bytes :=
  b.segments.flatMap fun (offset, length) =>
    if offset + length ≤ input.length then (input.drop offset).take length else []

/-- Chunks found in an input. -/
structure ChunksIn (input : Bytes) (chunks : List Chunk) : Prop where
  nonempty : ∀ c ∈ chunks, c.data ≠ []
  ascending : chunks.Pairwise fun a b => a.offset + a.data.length ≤ b.offset
  inside : ∀ c ∈ chunks, c.offset + c.data.length ≤ input.length
  data : ∀ c ∈ chunks, c.data <+: input.drop c.offset

namespace ChunksIn

variable {input : Bytes} {chunks : List Chunk} {c : Chunk}

theorem nil (input : Bytes) : ChunksIn input [] := by
  constructor <;> simp

theorem cons (h : ChunksIn input chunks) (hne : c.data ≠ [])
    (hdata : c.data <+: input.drop c.offset)
    (hbehind : ∀ b ∈ chunks, c.offset + c.data.length ≤ b.offset) :
    ChunksIn input (c :: chunks) where
  nonempty := List.forall_mem_cons.mpr ⟨hne, h.nonempty⟩
  ascending := List.pairwise_cons.mpr ⟨hbehind, h.ascending⟩
  inside := by
    refine List.forall_mem_cons.mpr ⟨?_, h.inside⟩
    have hpos := List.length_pos_iff.mpr hne
    have hle := hdata.length_le
    rw [List.length_drop] at hle
    omega
  data := List.forall_mem_cons.mpr ⟨hdata, h.data⟩

theorem collect_eq {consumed : Nat} (h : ChunksIn input chunks) :
    (ChunkedBody.mk chunks consumed).collect input = (ChunkedBody.mk chunks consumed).data := by
  simp only [ChunkedBody.collect, ChunkedBody.segments, ChunkedBody.data, List.flatMap_map]
  refine List.flatMap_congr fun c hc => ?_
  rw [if_pos (h.inside c hc)]
  exact (List.prefix_iff_eq_take.mp (h.data c hc)).symm

end ChunksIn

section

variable {input bs tail : Bytes} {pos n : Nat} {l : Line} {byte : UInt8}

theorem drop_of_line (hbs : input.drop pos = bs) (hl : firstLine? bs = some l) :
    input.drop (pos + l.size) = l.rest := by
  rw [firstLine?_rest hl, ← hbs, List.drop_drop]

theorem drop_of_chunk (hbs : input.drop pos = bs) (hl : firstLine? bs = some l)
    (hdrop : l.rest.drop n = byte :: tail) : input.drop (pos + l.size + n + 1) = tail := by
  rw [Nat.add_assoc (pos + l.size), ← List.drop_drop, drop_of_line hbs hl]
  exact (drop_succ_of_drop hdrop).1

end

/-- The chunks read from a place on lie in the input, and not in front of this place. -/
theorem chunksIn_scanChunks {input bs : Bytes} {pos : Nat} (hbs : input.drop pos = bs) :
    ChunksIn input (scanChunks pos bs).1.chunks ∧
      ∀ c ∈ (scanChunks pos bs).1.chunks, pos ≤ c.offset := by
  have hnone (pos : Nat) : ChunksIn input [] ∧ ∀ c ∈ ([] : List Chunk), pos ≤ c.offset :=
    ⟨.nil input, by simp⟩
  -- A chunk that was read in full, in front of others that start behind it.
  have hcons {pos n : Nat} {l : Line} {chunks : List Chunk} {byte : UInt8} {tail : Bytes}
      (hstart : input.drop (pos + l.size) = l.rest) (hdrop : l.rest.drop n = byte :: tail)
      (h : ChunksIn input chunks) (hbehind : ∀ c ∈ chunks, pos + l.size + n + 1 ≤ c.offset) :
      ChunksIn input (⟨pos + l.size, l.rest.take (n + 1)⟩ :: chunks) ∧
        ∀ c ∈ Chunk.mk (pos + l.size) (l.rest.take (n + 1)) :: chunks, pos ≤ c.offset := by
    have hlen := (drop_succ_of_drop hdrop).2
    refine ⟨h.cons ?_ ?_ ?_, List.forall_mem_cons.mpr ⟨Nat.le_add_right _ _, fun c hc => ?_⟩⟩
    · exact List.ne_nil_of_length_pos (by rw [hlen]; omega)
    · rw [hstart]
      exact List.take_prefix _ _
    · intro c hc
      rw [hlen]
      exact hbehind c hc
    · have := hbehind c hc
      omega
  fun_induction scanChunks pos bs with
  | case1 => exact hnone _
  | case2 => exact hnone _
  | case3 => exact hnone _
  | case4 pos bs l hl n hsize start hdrop available =>
    dsimp only
    split
    · exact hnone _
    · next hne =>
      have hrest : l.rest ≠ [] := fun he => hne (by simp [available, he])
      have hdata : l.rest <+: input.drop start := drop_of_line hbs hl ▸ List.prefix_rfl
      refine ⟨(ChunksIn.nil input).cons hrest hdata (by simp), ?_⟩
      simp [start]
  | case5 pos bs l hl n hsize start head tail hdrop chunk stop k rest hend ih =>
    have hrest : input.drop (stop + k) = rest := by
      rw [← List.drop_drop, drop_of_chunk hbs hl hdrop]
      exact (ChunkEnd.append_of_ended hend []).2.symm
    obtain ⟨hin, hbehind⟩ := ih hrest
    refine hcons (drop_of_line hbs hl) hdrop hin fun c hc => ?_
    exact Nat.le_trans (Nat.le_add_right _ _) (hbehind c hc)
  | case6 pos bs l hl n hsize start head tail hdrop chunk stop hend =>
    exact hcons (drop_of_line hbs hl) hdrop (.nil input) (by simp)
  | case7 pos bs l hl n hsize start head tail hdrop chunk stop hend =>
    exact hcons (drop_of_line hbs hl) hdrop (.nil input) (by simp)

/-- What was read of a body: all of it, or what stands before the fault. -/
def bodyRead : Except ChunkError ChunkedBody → ChunkedBody
  | .ok b => b
  | .error e => e.before

theorem bodyRead_decodeChunks (bs : Bytes) : bodyRead (decodeChunks bs) = (scanChunks 0 bs).1 := by
  unfold decodeChunks
  rcases scanChunks 0 bs with ⟨b, outcome⟩
  cases outcome <;> rfl

theorem chunksIn_bodyRead (bs : Bytes) : ChunksIn bs (bodyRead (decodeChunks bs)).chunks := by
  rw [bodyRead_decodeChunks]
  exact (chunksIn_scanChunks rfl).1

/-- However a reading ends, what it found is collected from the places that it reports. -/
theorem collect_bodyRead (bs : Bytes) :
    (bodyRead (decodeChunks bs)).collect bs = (bodyRead (decodeChunks bs)).data :=
  (chunksIn_bodyRead bs).collect_eq

/-- Data framed in chunks of any size is read back in front of any bytes, of which none is taken,
and is collected from the places of the chunks. -/
theorem collect_encodeChunks (data : Bytes) (size : UInt64) (rest : Bytes) :
    let framed := encodeChunks data size.toNat
    ∃ body, decodeChunks (framed ++ rest) = .ok body ∧ body.consumed = framed.length ∧
      body.data = data ∧ body.collect (framed ++ rest) = data := by
  intro framed
  have hpart : min data.length (size.toNat - 1 + 1) < wordBound := by
    have := size.toNat_lt
    simp only [wordBound]
    omega
  obtain ⟨body, hdecode, hconsumed, hdata⟩ := decodeChunks_encodeChunks size.toNat hpart rest
  have hcollect := collect_bodyRead (framed ++ rest)
  rw [hdecode] at hcollect
  exact ⟨body, hdecode, hconsumed, hdata, hcollect.trans hdata⟩

section Checked

/-- The sum of two places, if 64 bits hold it. -/
def addPlaces? (a b : Nat) : Option Nat := if a + b < wordBound then some (a + b) else none

/-- How far the first place is behind the second, unless it is in front of it. -/
def subPlaces? (a b : Nat) : Option Nat := if b ≤ a then some (a - b) else none

/-- The bytes from a place on, unless the input ends in front of it. -/
def bytesFrom? (input : Bytes) (pos : Nat) : Option Bytes :=
  if pos ≤ input.length then some (input.drop pos) else none

/-- Where the trailer that starts at a place ends, found within a number of rounds. -/
def trailerEnd? (input : Bytes) : Nat → Nat → Option Nat
  | 0, _ => none
  | rounds + 1, pos =>
    match firstLine? (input.drop pos) with
    | none => some pos
    | some l => (addPlaces? pos l.size).bind fun after =>
      if l.text.isEmpty then some after else trailerEnd? input rounds after

/-- Reading by places in the input, within a number of rounds and with every sum, every difference
and every slice checked. -/
def scanPlaces? (input : Bytes) : Nat → Nat → Option (ChunkedBody × ChunkOutcome)
  | 0, _ => none
  | rounds + 1, pos =>
    match firstLine? (input.drop pos) with
    | none => some (⟨[], pos⟩, .truncated)
    | some l =>
      match chunkSize? l.text with
      | none => some (⟨[], pos⟩, .malformed pos)
      | some 0 => do
        let start ← addPlaces? pos l.size
        let stop ← trailerEnd? input (input.length + 1) start
        return (⟨[], min stop input.length⟩, .complete)
      | some (n + 1) => do
        let start ← addPlaces? pos l.size
        let available ← subPlaces? input.length start
        if available < n + 1 then
          let chunks := if available = 0 then [] else [⟨start, input.drop start⟩]
          return (⟨chunks, input.length⟩, .truncated)
        else
          let stop ← addPlaces? start (n + 1)
          let tail ← bytesFrom? input stop
          let chunk : Chunk := ⟨start, (input.drop start).take (n + 1)⟩
          match ChunkEnd.of tail with
          | .ended k _ => do
            let after ← addPlaces? stop k
            let later ← scanPlaces? input rounds after
            return addChunk chunk later
          | .cut => return (⟨[chunk], stop⟩, .truncated)
          | .broken => return (⟨[chunk], stop⟩, .malformed stop)

/-- The body at the start of the input, by the checked reading. -/
def decodePlaces? (bs : Bytes) : Option (Except ChunkError ChunkedBody) :=
  (scanPlaces? bs (bs.length + 1) 0).map fun
    | (body, .complete) => .ok body
    | (body, .truncated) => .error (.truncated body)
    | (body, .malformed offset) => .error (.malformed offset body)

variable {input : Bytes}

theorem subPlaces?_eq {a b : Nat} (h : b ≤ a) : subPlaces? a b = some (a - b) := if_pos h

theorem bytesFrom?_eq {pos : Nat} (h : pos ≤ input.length) :
    bytesFrom? input pos = some (input.drop pos) := if_pos h

variable (hlen : input.length < wordBound)

include hlen

theorem addPlaces?_eq {a b : Nat} (h : a + b ≤ input.length) : addPlaces? a b = some (a + b) :=
  if_pos (Nat.lt_of_le_of_lt h hlen)

theorem trailerEnd?_eq {bs : Bytes} {rounds pos : Nat} (hbs : input.drop pos = bs)
    (hpos : pos ≤ input.length) (hrounds : input.length < rounds + pos) :
    trailerEnd? input rounds pos = some (pos + trailerLength bs) := by
  obtain ⟨rounds, rfl⟩ : ∃ n, rounds = n + 1 := ⟨rounds - 1, by omega⟩
  have hlength := congrArg List.length hbs
  rw [List.length_drop] at hlength
  fun_induction trailerLength bs generalizing rounds pos with
  | case1 bs hnone =>
    rw [trailerEnd?, hbs, hnone]
    rfl
  | case2 bs l hl htext =>
    have hline := firstLine?_length hl
    rw [trailerEnd?, hbs, hl]
    dsimp only
    rw [addPlaces?_eq hlen (by omega), Option.bind_some, if_pos htext]
  | case3 bs l hl htext ih =>
    have hline := firstLine?_length hl
    have hsize := firstLine?_size_pos hl
    obtain ⟨rounds, rfl⟩ : ∃ n, rounds = n + 1 := ⟨rounds - 1, by omega⟩
    have hafter : trailerEnd? input (rounds + 1) (pos + l.size) =
        some (pos + l.size + trailerLength l.rest) :=
      ih (drop_of_line hbs hl) (by omega) rounds (by omega) (by omega)
    rw [trailerEnd?, hbs, hl]
    dsimp only
    rw [addPlaces?_eq hlen (by omega), Option.bind_some, if_neg htext, hafter, Nat.add_assoc]

/-- What the checked reading does behind a size line. -/
theorem scanPlaces?_of_size {bs : Bytes} {rounds pos n : Nat} {l : Line} (hbs : input.drop pos = bs)
    (hl : firstLine? bs = some l) (hsize : chunkSize? l.text = some (n + 1))
    (hpos : pos + bs.length = input.length) :
    scanPlaces? input (rounds + 1) pos =
      if l.rest.length < n + 1 then
        let chunks := if l.rest.length = 0 then [] else [⟨pos + l.size, l.rest⟩]
        some (⟨chunks, input.length⟩, .truncated)
      else
        let chunk : Chunk := ⟨pos + l.size, l.rest.take (n + 1)⟩
        let stop := pos + l.size + n + 1
        match ChunkEnd.of (input.drop stop) with
        | .ended k _ => (scanPlaces? input rounds (stop + k)).map (addChunk chunk)
        | .cut => some (⟨[chunk], stop⟩, .truncated)
        | .broken => some (⟨[chunk], stop⟩, .malformed stop) := by
  have hline := firstLine?_length hl
  have hstart : addPlaces? pos l.size = some (pos + l.size) := addPlaces?_eq hlen (by omega)
  have hleft : subPlaces? input.length (pos + l.size) = some l.rest.length := by
    rw [subPlaces?_eq (by omega)]
    congr 1
    omega
  rw [scanPlaces?, hbs, hl]
  dsimp only
  rw [hsize]
  simp only [hstart, hleft, Option.bind_eq_bind, Option.bind_some, drop_of_line hbs hl]
  split
  · rfl
  · next hlong =>
    have hstop : addPlaces? (pos + l.size) (n + 1) = some (pos + l.size + n + 1) :=
      addPlaces?_eq hlen (by omega)
    rw [hstop, Option.bind_some, bytesFrom?_eq (by omega), Option.bind_some]
    cases hend : ChunkEnd.of (input.drop (pos + l.size + n + 1)) with
    | ended k rest =>
      have hk := ChunkEnd.length_of hend
      rw [List.length_drop] at hk
      have hafter : addPlaces? (pos + l.size + n + 1) k = some (pos + l.size + n + 1 + k) :=
        addPlaces?_eq hlen (by omega)
      simp only [hafter, Option.bind_some]
      cases scanPlaces? input rounds (pos + l.size + n + 1 + k) <;> rfl
    | cut => rfl
    | broken => rfl

theorem scanPlaces?_eq {bs : Bytes} {rounds pos : Nat} (hbs : input.drop pos = bs)
    (hpos : pos ≤ input.length) (hrounds : input.length < rounds + pos) :
    scanPlaces? input rounds pos = some (scanChunks pos bs) := by
  obtain ⟨rounds, rfl⟩ : ∃ n, rounds = n + 1 := ⟨rounds - 1, by omega⟩
  have hlength := congrArg List.length hbs
  rw [List.length_drop] at hlength
  fun_induction scanChunks pos bs generalizing rounds with
  | case1 pos bs hnone =>
    rw [scanPlaces?, hbs, hnone]
  | case2 pos bs l hl hsize =>
    rw [scanPlaces?, hbs, hl]
    dsimp only
    rw [hsize]
  | case3 pos bs l hl hsize =>
    have hline := firstLine?_length hl
    have htrailer := trailerLength_le l.rest
    have hstart : addPlaces? pos l.size = some (pos + l.size) := addPlaces?_eq hlen (by omega)
    have hstop : trailerEnd? input (input.length + 1) (pos + l.size) =
        some (pos + l.size + trailerLength l.rest) :=
      trailerEnd?_eq hlen (drop_of_line hbs hl) (by omega) (by omega)
    rw [scanPlaces?, hbs, hl]
    dsimp only
    rw [hsize]
    simp only [hstart, hstop, Option.bind_eq_bind, Option.bind_some]
    rw [Nat.min_eq_left (by omega)]
    rfl
  | case4 pos bs l hl n hsize start hdrop available =>
    have hline := firstLine?_length hl
    have hshort : l.rest.length ≤ n := List.drop_eq_nil_iff.mp hdrop
    rw [scanPlaces?_of_size hlen hbs hl hsize (by omega), if_pos (by omega)]
    have hend : input.length = start + available := by
      simp only [start, available]
      omega
    rw [hend]
  | case5 pos bs l hl n hsize start head tail hdrop chunk stop k rest hend ih =>
    have hline := firstLine?_length hl
    have hlong := chunk_size hl hdrop
    have hk := ChunkEnd.length_of hend
    have htail : input.drop stop = tail := drop_of_chunk hbs hl hdrop
    have hrest : input.drop (stop + k) = rest := by
      rw [← List.drop_drop, htail]
      exact (ChunkEnd.append_of_ended hend []).2.symm
    have hlater : scanPlaces? input rounds (stop + k) = some (scanChunks (stop + k) rest) := by
      obtain ⟨rounds, rfl⟩ : ∃ n, rounds = n + 1 := ⟨rounds - 1, by omega⟩
      refine ih hrest ?_ rounds ?_ ?_ <;> simp only [stop, start] <;> omega
    rw [scanPlaces?_of_size hlen hbs hl hsize (by omega), if_neg (by omega)]
    dsimp only
    rw [show input.drop (pos + l.size + n + 1) = tail from htail, hend]
    exact congrArg (Option.map (addChunk chunk)) hlater
  | case6 pos bs l hl n hsize start head tail hdrop chunk stop hend =>
    have hline := firstLine?_length hl
    have hlong := chunk_size hl hdrop
    rw [scanPlaces?_of_size hlen hbs hl hsize (by omega), if_neg (by omega)]
    dsimp only
    rw [drop_of_chunk hbs hl hdrop, hend]
  | case7 pos bs l hl n hsize start head tail hdrop chunk stop hend =>
    have hline := firstLine?_length hl
    have hlong := chunk_size hl hdrop
    rw [scanPlaces?_of_size hlen hbs hl hsize (by omega), if_neg (by omega)]
    dsimp only
    rw [drop_of_chunk hbs hl hdrop, hend]

/-- No sum of places exceeds 64 bits, no difference falls below zero and no slice starts behind the
end, whatever the input is. -/
theorem decodePlaces?_eq : decodePlaces? input = some (decodeChunks input) := by
  have hscan : scanPlaces? input (input.length + 1) 0 = some (scanChunks 0 input) :=
    scanPlaces?_eq hlen rfl (Nat.zero_le _) (by omega)
  rcases hread : scanChunks 0 input with ⟨body, outcome⟩
  rw [hread] at hscan
  cases outcome <;> simp only [decodePlaces?, decodeChunks, hscan, hread, Option.map_some]

end Checked

end HttpCapture
