import HttpCapture.Proofs.BodyDamage
import HttpCapture.Proofs.ChunkPlaces

/-! Chunked bodies of which more arrives. A reading that came to an end says the same of every
longer input, save that the trailer may go on. A reading that came upon the end of its input has
misjudged nothing: the data it had found is where the data of the longer input begins. -/

namespace HttpCapture

theorem trailerLength_le_append (bs more : Bytes) :
    trailerLength bs ≤ trailerLength (bs ++ more) := by
  fun_induction trailerLength bs with
  | case1 => exact Nat.zero_le _
  | case2 bs l hl htext =>
    rw [trailerLength_of_line (firstLine?_append_of_some hl more), if_pos htext]
  | case3 bs l hl htext ih =>
    rw [trailerLength_of_line (firstLine?_append_of_some hl more), if_neg htext]
    exact Nat.add_le_add_left ih _

/-- Behind a size line as much data is read as the size says, or else all there is. -/
theorem take_isPrefix_scanChunks {bs : Bytes} {l : Line} {n : Nat} (hl : firstLine? bs = some l)
    (hn : chunkSize? l.text = some (n + 1)) (pos : Nat) :
    l.rest.take (n + 1) <+: (scanChunks pos bs).1.data := by
  cases hdrop : l.rest.drop n with
  | nil =>
    have hshort : l.rest.length ≤ n := List.drop_eq_nil_iff.mp hdrop
    rw [scanChunks_of_short hl hn hdrop, List.take_of_length_le (by omega)]
    by_cases hempty : l.rest = [] <;> simp [hempty, ChunkedBody.data]
  | cons byte tail =>
    obtain ⟨htail, hlen⟩ := drop_succ_of_drop hdrop
    have hsplit : l.rest = l.rest.take (n + 1) ++ tail := by rw [← htail, List.take_append_drop]
    have hone (stop : Nat) : l.rest.take (n + 1) <+:
        (ChunkedBody.mk [⟨pos + l.size, l.rest.take (n + 1)⟩] stop).data := by
      simp [ChunkedBody.data]
    cases hend : ChunkEnd.of tail with
    | ended k rest =>
      have hne : l.rest.take (n + 1) ≠ [] := List.ne_nil_of_length_pos (by omega)
      rw [scanChunks_of_chunk hl (hn.trans (by rw [hlen])) hne hsplit hend]
      exact List.prefix_append _ _
    | cut =>
      rw [scanChunks_of_cut hl hn hdrop hend]
      exact hone _
    | broken =>
      rw [scanChunks_of_broken hl hn hdrop hend]
      exact hone _

/-- What becomes of a reading when more bytes follow its input. -/
inductive Extends : ChunkedBody × ChunkOutcome → ChunkedBody × ChunkOutcome → Prop
  | complete {chunks : List Chunk} {consumed consumed' : Nat} (h : consumed ≤ consumed') :
      Extends (⟨chunks, consumed⟩, .complete) (⟨chunks, consumed'⟩, .complete)
  | malformed {body : ChunkedBody} {offset : Nat} :
      Extends (body, .malformed offset) (body, .malformed offset)
  | truncated {body : ChunkedBody} {read : ChunkedBody × ChunkOutcome}
      (h : body.data <+: read.1.data) : Extends (body, .truncated) read

theorem Extends.addChunk {read read' : ChunkedBody × ChunkOutcome} (h : Extends read read')
    (c : Chunk) : Extends (addChunk c read) (addChunk c read') := by
  cases h with
  | complete h => exact .complete h
  | malformed => exact .malformed
  | truncated h => exact .truncated ((List.prefix_append_right_inj c.data).mpr h)

theorem extends_scanChunks (pos : Nat) (bs more : Bytes) :
    Extends (scanChunks pos bs) (scanChunks pos (bs ++ more)) := by
  fun_induction scanChunks pos bs with
  | case1 => exact .truncated List.nil_prefix
  | case2 pos bs l hl hsize =>
    rw [scanChunks_of_bad_size (firstLine?_append_of_some hl more) hsize]
    exact .malformed
  | case3 pos bs l hl hsize =>
    rw [scanChunks_of_zero (firstLine?_append_of_some hl more) hsize]
    exact .complete (Nat.add_le_add_left (trailerLength_le_append _ _) _)
  | case4 pos bs l hl n hsize start hdrop available =>
    have hmore := take_isPrefix_scanChunks (firstLine?_append_of_some hl more) hsize pos
    have hshort : l.rest.length ≤ n := List.drop_eq_nil_iff.mp hdrop
    have hall : l.rest <+: (l.rest ++ more).take (n + 1) :=
      List.prefix_take_iff.mpr ⟨List.prefix_append _ _, by omega⟩
    refine .truncated (List.IsPrefix.trans ?_ (hall.trans hmore))
    by_cases hempty : available = 0 <;> simp [hempty, ChunkedBody.data]
  | case5 pos bs l hl n hsize start head tail hdrop chunk stop k rest hended ih =>
    rw [scanChunks_append_of_ended hl hsize hdrop hended]
    exact ih.addChunk chunk
  | case6 pos bs l hl n hsize start head tail hdrop chunk stop =>
    have hmore := take_isPrefix_scanChunks (firstLine?_append_of_some hl more) hsize pos
    rw [List.take_append_of_le_length (length_of_drop hdrop)] at hmore
    exact .truncated (by simpa [ChunkedBody.data] using hmore)
  | case7 pos bs l hl n hsize start head tail hdrop chunk stop hbroken =>
    rw [scanChunks_append_of_broken hl hsize hdrop hbroken]
    exact .malformed

/-- What follows an input changes nothing that was read: a body stays where it is and only
its trailer may go on, a fault stays, and what was found of a cut body is where the data of
the longer one begins. -/
theorem decodeChunks_append (bs more : Bytes) :
    (∀ body, decodeChunks bs = .ok body → ∃ whole, decodeChunks (bs ++ more) = .ok whole ∧
      whole.chunks = body.chunks ∧ body.consumed ≤ whole.consumed) ∧
    (∀ offset before, decodeChunks bs = .error (.malformed offset before) →
      decodeChunks (bs ++ more) = .error (.malformed offset before)) ∧
    (∀ before, decodeChunks bs = .error (.truncated before) →
      before.collect bs <+: (bodyRead (decodeChunks (bs ++ more))).collect (bs ++ more)) := by
  have hextends := extends_scanChunks 0 bs more
  refine ⟨fun body h => ?_, fun offset before h => ?_, fun before h => ?_⟩
  · rw [decodeChunks_eq_ok_iff.mp h] at hextends
    generalize hwhole : scanChunks 0 (bs ++ more) = read at hextends
    cases hextends with
    | complete hle => exact ⟨_, decodeChunks_eq_ok_iff.mpr hwhole, rfl, hle⟩
  · rw [decodeChunks_eq_malformed_iff.mp h] at hextends
    generalize hwhole : scanChunks 0 (bs ++ more) = read at hextends
    cases hextends with
    | malformed => exact decodeChunks_eq_malformed_iff.mpr hwhole
  · have hpart := collect_bodyRead bs
    rw [h] at hpart
    rw [decodeChunks_eq_truncated_iff.mp h] at hextends
    cases hextends with
    | truncated hdata =>
      rw [collect_bodyRead, bodyRead_decodeChunks]
      exact hpart ▸ hdata

/-- A trailer that goes on, a chunk followed by a byte of no line ending, and a cut line ending. -/
theorem decodeChunks_append_of_cut_lines :
    let chunk : Bytes := [0x31, 13, 10, 0x61]
    let last : Bytes := chunk ++ [13, 10, 0x30, 13, 10]
    (decodeChunks last = .ok ⟨[⟨3, [0x61]⟩], 9⟩ ∧
      ∃ whole, decodeChunks (last ++ [0x78, 10, 10]) = .ok whole ∧ whole.chunks = [⟨3, [0x61]⟩] ∧
        9 ≤ whole.consumed) ∧
    (decodeChunks (chunk ++ [0x78]) = .error (.malformed 4 ⟨[⟨3, [0x61]⟩], 4⟩) ∧
      decodeChunks (chunk ++ [0x78] ++ [13, 10]) = .error (.malformed 4 ⟨[⟨3, [0x61]⟩], 4⟩)) ∧
    decodeChunks (chunk ++ [13]) = .error (.truncated ⟨[⟨3, [0x61]⟩], 4⟩) ∧
      [0x61] <+: (bodyRead (decodeChunks (chunk ++ [13] ++ [10, 0x35, 10, 0x62]))).collect
        (chunk ++ [13] ++ [10, 0x35, 10, 0x62]) := by
  intro chunk last
  have hlast : decodeChunks last = .ok ⟨[⟨3, [0x61]⟩], 9⟩ := by decide +kernel
  have hstray : decodeChunks (chunk ++ [0x78]) = .error (.malformed 4 ⟨[⟨3, [0x61]⟩], 4⟩) := by
    decide +kernel
  have hcut : decodeChunks (chunk ++ [13]) = .error (.truncated ⟨[⟨3, [0x61]⟩], 4⟩) := by
    decide +kernel
  exact ⟨⟨hlast, (decodeChunks_append last [0x78, 10, 10]).1 _ hlast⟩,
    ⟨hstray, (decodeChunks_append (chunk ++ [0x78]) [13, 10]).2.1 _ _ hstray⟩, hcut,
    (decodeChunks_append (chunk ++ [13]) [10, 0x35, 10, 0x62]).2.2 _ hcut⟩

end HttpCapture
