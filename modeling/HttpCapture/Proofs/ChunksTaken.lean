import HttpCapture.Proofs.PrefixReading

/-! The part of a chunked body that was read, read by itself. A whole body is read alike. One whose
framing breaks is now cut where it was broken, with the same chunks before. -/

namespace HttpCapture

theorem firstLine?_take {bs : Bytes} {l : Line} (h : firstLine? bs = some l) (n : Nat) :
    firstLine? (bs.take (l.size + n)) = some { l with rest := l.rest.take n } := by
  obtain ⟨⟨line, rest⟩, hcut, rfl⟩ := Option.map_eq_some_iff.mp h
  have hsplit : bs.take (line.length + 1 + n) = line ++ lineFeed :: rest.take n := by
    rw [cutAt_eq_append hcut, Nat.add_assoc, List.take_length_add_append, Nat.add_comm 1,
      List.take_succ_cons]
  rw [hsplit, firstLine?, cutAt_append (not_mem_of_cutAt hcut)]
  rfl

theorem trailerLength_take (bs : Bytes) :
    trailerLength (bs.take (trailerLength bs)) = trailerLength bs := by
  fun_induction trailerLength bs with
  | case1 => rw [List.take_zero, trailerLength]; rfl
  | case2 bs l hl htext =>
    have hline := firstLine?_take hl 0
    rw [Nat.add_zero] at hline
    rw [trailerLength_of_line hline, if_pos htext]
  | case3 bs l hl htext ih =>
    rw [trailerLength_of_line (firstLine?_take hl _), if_neg htext, ih]

theorem ChunkEnd.take_of_ended {bs rest : Bytes} {k : Nat} (h : ChunkEnd.of bs = .ended k rest)
    (n : Nat) : ChunkEnd.of (bs.take (k + n)) = .ended k (rest.take n) := by
  unfold ChunkEnd.of at h
  split at h
  · obtain ⟨rfl, rfl⟩ := ChunkEnd.ended.inj h
    rw [Nat.add_comm]
    rfl
  · obtain ⟨rfl, rfl⟩ := ChunkEnd.ended.inj h
    rw [Nat.add_comm]
    rfl
  · cases h
  · cases h
  · cases h

theorem scanChunks_of_short {bs : Bytes} {l : Line} {n : Nat} (hl : firstLine? bs = some l)
    (hn : chunkSize? l.text = some (n + 1)) (hdrop : l.rest.drop n = []) (pos : Nat) :
    scanChunks pos bs = (⟨if l.rest.length = 0 then [] else [⟨pos + l.size, l.rest⟩],
      pos + l.size + l.rest.length⟩, .truncated) := by
  rw [scanChunks]
  split
  · next hnone => simp [hl] at hnone
  · next l' hl' =>
    obtain rfl := Option.some.inj (hl.symm.trans hl')
    rw [hn]
    dsimp only
    split
    · rfl
    · next hcons => simp [hdrop] at hcons

theorem scanChunks_of_cut {bs tail : Bytes} {l : Line} {n : Nat} {byte : UInt8}
    (hl : firstLine? bs = some l) (hn : chunkSize? l.text = some (n + 1))
    (hdrop : l.rest.drop n = byte :: tail) (he : ChunkEnd.of tail = .cut) (pos : Nat) :
    scanChunks pos bs = (⟨[⟨pos + l.size, l.rest.take (n + 1)⟩], pos + l.size + n + 1⟩,
      .truncated) := by
  rw [scanChunks]
  split
  · next hnone => simp [hl] at hnone
  · next l' hl' =>
    obtain rfl := Option.some.inj (hl.symm.trans hl')
    rw [hn]
    dsimp only
    split
    · next hnil => simp [hdrop] at hnil
    · next byte' tail' hdrop' =>
      obtain ⟨rfl, rfl⟩ := List.cons.inj (hdrop.symm.trans hdrop')
      split
      · next hended => simp [he] at hended
      · rfl
      · next hbroken => simp [he] at hbroken

/-- How the reading of a body ends when nothing follows the part that was read. -/
def ChunkOutcome.alone : ChunkOutcome → ChunkOutcome
  | .complete => .complete
  | _ => .truncated

theorem scanChunks_addChunk_take {bs tail rest : Bytes} {l : Line} {n k : Nat} {byte : UInt8}
    (hl : firstLine? bs = some l) (hn : chunkSize? l.text = some (n + 1))
    (hdrop : l.rest.drop n = byte :: tail) (he : ChunkEnd.of tail = .ended k rest)
    (pos size : Nat) :
    scanChunks pos (bs.take (l.size + (n + 1 + (k + size)))) =
      addChunk ⟨pos + l.size, l.rest.take (n + 1)⟩
        (scanChunks (pos + l.size + (n + 1) + k) (rest.take size)) := by
  obtain ⟨htail, hlen⟩ := drop_succ_of_drop hdrop
  have hsplit : l.rest.take (n + 1 + (k + size)) = l.rest.take (n + 1) ++ tail.take (k + size) := by
    rw [List.take_add, htail]
  have hne : l.rest.take (n + 1) ≠ [] := List.ne_nil_of_length_pos (by omega)
  have hscan := scanChunks_of_chunk (firstLine?_take hl _) (hn.trans (by rw [hlen])) hne hsplit
    (ChunkEnd.take_of_ended he size) pos
  rwa [hlen] at hscan

theorem scanChunks_chunk_take {bs tail : Bytes} {l : Line} {n : Nat} {byte : UInt8}
    (hl : firstLine? bs = some l) (hn : chunkSize? l.text = some (n + 1))
    (hdrop : l.rest.drop n = byte :: tail) (pos : Nat) :
    scanChunks pos (bs.take (l.size + (n + 1))) =
      (⟨[⟨pos + l.size, l.rest.take (n + 1)⟩], pos + l.size + n + 1⟩, .truncated) := by
  have hlast : (l.rest.take (n + 1)).drop n = [byte] := by
    rw [List.drop_take, hdrop, Nat.add_sub_cancel_left]
    rfl
  rw [scanChunks_of_cut (firstLine?_take hl (n + 1)) hn hlast rfl, List.take_take, Nat.min_self]

/-- The part of the input that was read is read alike by itself. -/
theorem scanChunks_take (pos : Nat) (bs : Bytes) :
    scanChunks pos (bs.take ((scanChunks pos bs).1.consumed - pos)) =
      ((scanChunks pos bs).1, (scanChunks pos bs).2.alone) := by
  have hnil : scanChunks pos [] = (⟨[], pos⟩, .truncated) := by rw [scanChunks]; rfl
  fun_induction scanChunks pos bs with
  | case1 => rw [Nat.sub_self, List.take_zero, hnil]; rfl
  | case2 => rw [Nat.sub_self, List.take_zero, hnil]; rfl
  | case3 pos bs l hl hsize =>
    have htrailer : pos + l.size + trailerLength l.rest - pos = l.size + trailerLength l.rest := by
      omega
    rw [htrailer, scanChunks_of_zero (firstLine?_take hl _) hsize, trailerLength_take]
    rfl
  | case4 pos bs l hl n hsize start hdrop available =>
    have hall : start + available - pos = bs.length := by
      have := firstLine?_length hl
      simp only [start, available]
      omega
    rw [hall, List.take_length, scanChunks_of_short hl hsize hdrop]
    rfl
  | case5 pos bs l hl n hsize start head tail hdrop chunk stop k rest hend ih =>
    have hle := le_scanChunks_consumed (stop + k) rest
    have hplace : (scanChunks (stop + k) rest).1.consumed - pos = l.size + (n + 1 + (k +
        ((scanChunks (stop + k) rest).1.consumed - (stop + k)))) := by
      simp only [start, stop] at hle ⊢
      omega
    have hscan := ih (by rw [scanChunks]; rfl)
    rw [addChunk, hplace, scanChunks_addChunk_take hl hsize hdrop hend]
    exact congrArg (addChunk chunk) hscan
  | case6 pos bs l hl n hsize start head tail hdrop chunk stop hend =>
    have hplace : stop - pos = l.size + (n + 1) := by
      simp only [start, stop]
      omega
    rw [hplace, scanChunks_chunk_take hl hsize hdrop]
    rfl
  | case7 pos bs l hl n hsize start head tail hdrop chunk stop hend =>
    have hplace : stop - pos = l.size + (n + 1) := by
      simp only [start, stop]
      omega
    rw [hplace, scanChunks_chunk_take hl hsize hdrop]
    rfl

theorem decodeChunks_take_of_ok {bs : Bytes} {body : ChunkedBody} (h : decodeChunks bs = .ok body) :
    decodeChunks (bs.take body.consumed) = .ok body := by
  have htake := scanChunks_take 0 bs
  rw [Nat.sub_zero, decodeChunks_eq_ok_iff.mp h] at htake
  exact decodeChunks_eq_ok_iff.mpr htake

theorem decodeChunks_take_of_malformed {bs : Bytes} {offset : Nat} {before : ChunkedBody}
    (h : decodeChunks bs = .error (.malformed offset before)) :
    decodeChunks (bs.take offset) = .error (.truncated before) := by
  have hscan := decodeChunks_eq_malformed_iff.mp h
  have hoffset := scanChunks_malformed (congrArg Prod.snd hscan)
  have htake := scanChunks_take 0 bs
  rw [Nat.sub_zero, ← hoffset, hscan] at htake
  rw [decodeChunks, htake]
  rfl

end HttpCapture
