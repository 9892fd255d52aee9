import HttpCapture.Proofs.WrittenText

/-! Data framed in chunks is read back, whatever follows it. -/

namespace HttpCapture

theorem hexValue?_hexDigit {n : Nat} (h : n < 16) : hexValue? (hexDigit n) = some n := by
  revert n
  decide

theorem hexDigit_plain {n : Nat} (h : n < 16) :
    hexDigit n ≠ lineFeed ∧ isBlankByte (hexDigit n) = false ∧ hexDigit n ≠ 0x3b := by
  revert n
  decide

theorem mem_hexBytes {n : Nat} {b : UInt8} (h : b ∈ hexBytes n) : ∃ d < 16, b = hexDigit d := by
  induction n using hexBytes.induct with
  | case1 n hn =>
    rw [hexBytes, if_pos hn] at h
    exact ⟨n, hn, List.mem_singleton.mp h⟩
  | case2 n hn ih =>
    rw [hexBytes, if_neg hn] at h
    rcases List.mem_append.mp h with h | h
    · exact ih h
    · exact ⟨n % 16, Nat.mod_lt _ (by omega), List.mem_singleton.mp h⟩

theorem hexBytes_ne_nil (n : Nat) : hexBytes n ≠ [] := by
  rw [hexBytes]
  split <;> simp

theorem mapM_hexValue?_hexBytes (n : Nat) :
    ∃ ds, (hexBytes n).mapM hexValue? = some ds ∧ ds.foldl (· * 16 + ·) 0 = n := by
  induction n using hexBytes.induct with
  | case1 n hn =>
    refine ⟨[n], ?_, by simp⟩
    rw [hexBytes, if_pos hn]
    simp [hexValue?_hexDigit hn]
  | case2 n hn ih =>
    obtain ⟨ds, hds, hval⟩ := ih
    have hlt : n % 16 < 16 := Nat.mod_lt _ (by omega)
    refine ⟨ds ++ [n % 16], ?_, ?_⟩
    · rw [hexBytes, if_neg hn, List.mapM_append, hds]
      simp [hexValue?_hexDigit hlt]
    · rw [List.foldl_append, hval]
      simp
      omega

theorem readHex?_hexBytes {n : Nat} (h : n < wordBound) : readHex? (hexBytes n) = some n := by
  obtain ⟨ds, hds, hval⟩ := mapM_hexValue?_hexBytes n
  simp [readHex?, hexBytes_ne_nil, hds, hval, h]

theorem chunkSize?_hexBytes {n : Nat} (h : n < wordBound) : chunkSize? (hexBytes n) = some n := by
  have hplain : ∀ b ∈ hexBytes n, b ≠ lineFeed ∧ isBlankByte b = false ∧ b ≠ 0x3b := by
    intro b hb
    obtain ⟨d, hd, rfl⟩ := mem_hexBytes hb
    exact hexDigit_plain hd
  have htake : (hexBytes n).takeWhile (· != 0x3b) = hexBytes n := by
    have : (hexBytes n ++ []).takeWhile (· != 0x3b) = hexBytes n ++ [].takeWhile (· != 0x3b) :=
      List.takeWhile_append_of_pos fun b hb => bne_iff_ne.mpr (hplain b hb).2.2
    simpa using this
  rw [chunkSize?, htake, trimBytes,
    trimBy_trimmed (trimmed_of_forall fun b hb => (hplain b hb).2.1)]
  exact readHex?_hexBytes h

theorem lineFeed_not_mem_hexBytes (n : Nat) : lineFeed ∉ hexBytes n := by
  intro hm
  obtain ⟨d, hd, he⟩ := mem_hexBytes hm
  exact (hexDigit_plain hd).1 he.symm

/-- A chunk whose size line, data and line ending stand in front is read and put before the rest. -/
theorem scanChunks_of_chunk {bs data tail rest : Bytes} {l : Line} {k : Nat}
    (hl : firstLine? bs = some l) (hn : chunkSize? l.text = some data.length) (hne : data ≠ [])
    (hrest : l.rest = data ++ tail) (he : ChunkEnd.of tail = .ended k rest) (pos : Nat) :
    scanChunks pos bs =
      addChunk ⟨pos + l.size, data⟩ (scanChunks (pos + l.size + data.length + k) rest) := by
  obtain ⟨n, hlen⟩ : ∃ n, data.length = n + 1 :=
    ⟨data.length - 1, by have := List.length_pos_iff.mpr hne; omega⟩
  have hdrop : ∃ b, l.rest.drop n = b :: tail := by
    refine ⟨data[n], ?_⟩
    rw [hrest, List.drop_append_of_le_length (by omega), List.drop_eq_getElem_cons (by omega),
      List.drop_of_length_le (by omega)]
    rfl
  have htake : l.rest.take (n + 1) = data := by
    rw [hrest, ← hlen, List.take_left]
  obtain ⟨b, hdrop⟩ := hdrop
  rw [scanChunks]
  split
  · next h => simp [hl] at h
  · next l' h =>
    obtain rfl : l = l' := Option.some.inj (hl.symm.trans h)
    rw [hn, hlen]
    dsimp only
    split
    · next h => simp [hdrop] at h
    · next b' tail' h =>
      obtain ⟨rfl, rfl⟩ := List.cons.inj (hdrop.symm.trans h)
      split
      · next k' rest' h =>
        obtain ⟨rfl, rfl⟩ := ChunkEnd.ended.inj (he.symm.trans h)
        rw [htake]
        rfl
      · next h => simp [he] at h
      · next h => simp [he] at h

theorem scanChunks_of_zero {bs : Bytes} {l : Line} (hl : firstLine? bs = some l)
    (hn : chunkSize? l.text = some 0) (pos : Nat) :
    scanChunks pos bs = (⟨[], pos + l.size + trailerLength l.rest⟩, .complete) := by
  rw [scanChunks]
  split
  · next h => simp [hl] at h
  · next l' h =>
    obtain rfl : l = l' := Option.some.inj (hl.symm.trans h)
    rw [hn]

theorem scanChunks_encodeChunk {data : Bytes} (hne : data ≠ []) (hlen : data.length < wordBound)
    (pos : Nat) (rest : Bytes) :
    scanChunks pos (encodeChunk data ++ rest) =
      addChunk ⟨pos + ((hexBytes data.length).length + 2), data⟩
        (scanChunks (pos + (encodeChunk data).length) rest) := by
  have hsplit : encodeChunk data ++ rest =
      hexBytes data.length ++ lineEnding ++ (data ++ (lineEnding ++ rest)) := by
    simp [encodeChunk]
  have hl :=
    firstLine?_append (lineFeed_not_mem_hexBytes data.length) (data ++ (lineEnding ++ rest))
  rw [hsplit, scanChunks_of_chunk hl (chunkSize?_hexBytes hlen) hne rfl
    (show ChunkEnd.of (lineEnding ++ rest) = .ended 2 rest from rfl) pos]
  congr 2
  simp [encodeChunk, lineEnding]
  omega

theorem trailerLength_lineEnding (rest : Bytes) : trailerLength (lineEnding ++ rest) = 2 := by
  have hl := firstLine?_lineEnding rest
  rw [trailerLength]
  split
  · next h => simp [hl] at h
  · next l h =>
    obtain rfl := Option.some.inj (hl.symm.trans h)
    simp

theorem scanChunks_last (pos : Nat) (rest : Bytes) :
    scanChunks pos (hexBytes 0 ++ lineEnding ++ (lineEnding ++ rest)) =
      (⟨[], pos + 5⟩, .complete) := by
  have hl := firstLine?_append (lineFeed_not_mem_hexBytes 0) (lineEnding ++ rest)
  rw [scanChunks_of_zero hl (chunkSize?_hexBytes (by decide)), trailerLength_lineEnding]
  simp [hexBytes]

/-- Reading written parts goes through them chunk by chunk and stops after the last chunk. -/
theorem scanChunks_encodeParts (size : Nat) (data : Bytes)
    (hlen : min data.length (size + 1) < wordBound) (pos : Nat) (rest : Bytes) :
    ∃ chunks : List Chunk, chunks.flatMap (·.data) = data ∧
      scanChunks pos (encodeParts size data ++ (hexBytes 0 ++ lineEnding ++ (lineEnding ++ rest))) =
        (⟨chunks, pos + (encodeParts size data).length + 5⟩, .complete) := by
  induction data using encodeParts.induct size generalizing pos with
  | case1 data hempty =>
    obtain rfl : data = [] := by simpa using hempty
    refine ⟨[], rfl, ?_⟩
    rw [encodeParts, if_pos hempty, List.nil_append, scanChunks_last]
    rfl
  | case2 data hempty ih =>
    have hne : data ≠ [] := by simpa using hempty
    have hpart : data.take (size + 1) ≠ [] := by simp [hne]
    have hpartlen : (data.take (size + 1)).length < wordBound := by
      rwa [List.length_take, Nat.min_comm]
    have hrestlen : min (data.drop (size + 1)).length (size + 1) < wordBound := by
      rw [List.length_drop]
      omega
    obtain ⟨chunks, hdata, hscan⟩ := ih hrestlen (pos + (encodeChunk (data.take (size + 1))).length)
    let first : Chunk :=
      ⟨pos + ((hexBytes (data.take (size + 1)).length).length + 2), data.take (size + 1)⟩
    refine ⟨first :: chunks, ?_, ?_⟩
    · rw [List.flatMap_cons, hdata]
      exact List.take_append_drop _ _
    · rw [encodeParts, if_neg hempty, List.append_assoc,
        scanChunks_encodeChunk hpart hpartlen, hscan]
      simp only [addChunk, List.length_append, Nat.add_assoc, first]

/-- Chunked framing is undone in front of any bytes, and no byte of what follows is taken. -/
theorem decodeChunks_encodeChunks {data : Bytes} (size : Nat)
    (hlen : min data.length (size - 1 + 1) < wordBound) (rest : Bytes) :
    ∃ body, decodeChunks (encodeChunks data size ++ rest) = .ok body ∧
      body.consumed = (encodeChunks data size).length ∧ body.data = data := by
  obtain ⟨chunks, hdata, hscan⟩ := scanChunks_encodeParts (size - 1) data hlen 0 rest
  have hsplit : encodeChunks data size ++ rest =
      encodeParts (size - 1) data ++ (hexBytes 0 ++ lineEnding ++ (lineEnding ++ rest)) := by
    simp [encodeChunks]
  refine ⟨⟨chunks, 0 + (encodeParts (size - 1) data).length + 5⟩, ?_, ?_, hdata⟩
  · rw [decodeChunks, hsplit, hscan]
  · simp [encodeChunks, hexBytes, lineEnding]

end HttpCapture
