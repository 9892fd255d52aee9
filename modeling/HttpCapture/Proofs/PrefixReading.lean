import HttpCapture.Proofs.MessageSizes
import Mathlib.Data.List.TakeWhile

/-! What is read from a part of a stream is read from a longer one too, unless the reader came upon
the end of the part. A reader that came upon the end has left no whole line behind. -/

namespace HttpCapture

theorem not_mem_of_cutAt {α : Type} [BEq α] [LawfulBEq α] {sep : α} {l before rest : List α}
    (h : cutAt sep l = some (before, rest)) : sep ∉ before := by
  unfold cutAt at h
  split at h
  · cases h
  · intro hmem
    rw [Option.some.injEq, Prod.mk.injEq] at h
    rw [← h.1] at hmem
    have hbefore := List.mem_takeWhile_imp hmem
    simp at hbefore

theorem firstLine?_append_of_some {bs : Bytes} {l : Line} (h : firstLine? bs = some l)
    (more : Bytes) : firstLine? (bs ++ more) = some { l with rest := l.rest ++ more } := by
  obtain ⟨⟨line, rest⟩, hcut, rfl⟩ := Option.map_eq_some_iff.mp h
  have hsplit : bs ++ more = line ++ lineFeed :: (rest ++ more) := by
    rw [cutAt_eq_append hcut, List.append_assoc, List.cons_append]
  rw [firstLine?, hsplit, cutAt_append (not_mem_of_cutAt hcut)]
  rfl

theorem exists_firstLine? {bs : Bytes} (h : lineFeed ∈ bs) : ∃ l, firstLine? bs = some l := by
  have hne : bs.dropWhile (· != lineFeed) ≠ [] := by
    intro hnil
    have hall := List.dropWhile_eq_nil_iff.mp hnil lineFeed h
    simp at hall
  obtain ⟨byte, rest, hdrop⟩ := List.exists_cons_of_ne_nil hne
  exact ⟨_, by rw [firstLine?, cutAt, hdrop]; rfl⟩

theorem lineFeed_mem_of_firstLine? {bs : Bytes} {l : Line} (h : firstLine? bs = some l) :
    lineFeed ∈ bs := by
  obtain ⟨⟨line, rest⟩, hcut, -⟩ := Option.map_eq_some_iff.mp h
  rw [cutAt_eq_append hcut]
  simp

theorem firstLine?_eq_none_iff {bs : Bytes} : firstLine? bs = none ↔ lineFeed ∉ bs := by
  constructor
  · intro hnone hfeed
    obtain ⟨l, hl⟩ := exists_firstLine? hfeed
    simp [hnone] at hl
  · intro hfeed
    by_contra hsome
    obtain ⟨l, hl⟩ := Option.ne_none_iff_exists'.mp hsome
    exact hfeed (lineFeed_mem_of_firstLine? hl)

theorem firstLine?_rest {bs : Bytes} {l : Line} (h : firstLine? bs = some l) :
    l.rest = bs.drop l.size := by
  obtain ⟨⟨line, rest⟩, hcut, rfl⟩ := Option.map_eq_some_iff.mp h
  rw [cutAt_eq_append hcut]
  simp

section Head

variable {limit : Nat} {bs : Bytes}

theorem lineWithin?_append_of_some {l : Line} (h : lineWithin? limit bs = some l) (more : Bytes) :
    lineWithin? limit (bs ++ more) = some { l with rest := l.rest ++ more } := by
  obtain ⟨hline, hsize⟩ := lineWithin?_eq_some h
  exact lineWithin?_of_firstLine? (firstLine?_append_of_some hline more) hsize

/-- A line missed though the limit lies within the part is too long for any longer stream. -/
theorem lineWithin?_append_of_none (h : lineWithin? limit bs = none)
    (hend : lineFeed ∈ bs ∨ limit < bs.length) (more : Bytes) :
    lineWithin? limit (bs ++ more) = none := by
  by_contra hsome
  obtain ⟨l, hl⟩ := Option.ne_none_iff_exists'.mp hsome
  obtain ⟨hline, hsize⟩ := lineWithin?_eq_some hl
  by_cases hfeed : lineFeed ∈ bs
  · obtain ⟨first, hfirst⟩ := exists_firstLine? hfeed
    have hsame := (firstLine?_append_of_some hfirst more).symm.trans hline
    obtain rfl := Option.some.inj hsame
    rw [lineWithin?_of_firstLine? hfirst hsize] at h
    cases h
  · -- The line of the longer stream ends behind the part, hence behind the limit.
    obtain ⟨⟨line, rest⟩, hcut, rfl⟩ := Option.map_eq_some_iff.mp hline
    have hsplit := cutAt_eq_append hcut
    have hlong : bs.length ≤ line.length := by
      by_contra hshort
      have hat := congrArg (·[line.length]?) hsplit
      simp only [List.getElem?_append_left (Nat.lt_of_not_le hshort)] at hat
      rw [List.getElem?_append_right (Nat.le_refl _), Nat.sub_self] at hat
      exact hfeed (List.mem_of_getElem? hat)
    have hlimit := hend.resolve_left hfeed
    dsimp only at hsize
    omega

def HeaderBlock.followedBy (more : Bytes) : HeaderBlock → HeaderBlock
  | .complete fields size rest => .complete fields size (rest ++ more)
  | .truncated fields => .truncated fields
  | .oversized => .oversized

def HeaderBlock.isTruncated : HeaderBlock → Bool
  | .truncated _ => true
  | _ => false

theorem HeaderBlock.followedBy_addLine (more : Bytes) (field : Option Field) (lineSize : Nat)
    (block : HeaderBlock) :
    (block.addLine field lineSize).followedBy more =
      (block.followedBy more).addLine field lineSize := by
  cases block <;> rfl

theorem HeaderBlock.isTruncated_addLine (field : Option Field) (lineSize : Nat)
    (block : HeaderBlock) : (block.addLine field lineSize).isTruncated = block.isTruncated := by
  cases block <;> rfl

theorem readHeaderLines_of_line {l : Line} (hl : lineWithin? limit bs = some l) :
    readHeaderLines limit bs = if l.text.isEmpty then .complete [] l.size l.rest
      else (readHeaderLines (limit - l.size) l.rest).addLine (headerField? l.text) l.size := by
  rw [readHeaderLines]
  split
  · next hnone => simp [hl] at hnone
  · next l' hl' => rw [Option.some.inj (hl.symm.trans hl')]

theorem readHeaderLines_append (h : (readHeaderLines limit bs).isTruncated = false) (more : Bytes) :
    readHeaderLines limit (bs ++ more) = (readHeaderLines limit bs).followedBy more := by
  fun_induction readHeaderLines limit bs with
  | case1 => simp [HeaderBlock.isTruncated] at h
  | case2 limit bs hnone hlong =>
    have hmore := lineWithin?_append_of_none hnone (.inr (Nat.lt_of_not_le hlong)) more
    rw [readHeaderLines]
    split
    · rw [if_neg (by rw [List.length_append]; omega)]
      rfl
    · next l hl => simp [hmore] at hl
  | case3 limit bs l hl htext =>
    rw [readHeaderLines_of_line (lineWithin?_append_of_some hl more), if_pos htext]
    rfl
  | case4 limit bs l hl htext ih =>
    rw [HeaderBlock.isTruncated_addLine] at h
    rw [readHeaderLines_of_line (lineWithin?_append_of_some hl more), if_neg htext,
      HeaderBlock.followedBy_addLine, ← ih h]

theorem readHead?_append_of_some {head : Head} (h : readHead? limit bs = some head)
    (hblock : head.block.isTruncated = false) (more : Bytes) :
    readHead? limit (bs ++ more) = some { head with block := head.block.followedBy more } := by
  obtain ⟨l, hl, hread⟩ := Option.bind_eq_some_iff.mp h
  obtain ⟨startLine, hstart, rfl⟩ := Option.map_eq_some_iff.mp hread
  rw [readHead?, lineWithin?_append_of_some hl more, Option.bind_some, hstart, Option.map_some,
    readHeaderLines_append hblock more]

theorem readHead?_append_of_none (h : readHead? limit bs = none) (hfeed : lineFeed ∈ bs)
    (more : Bytes) : readHead? limit (bs ++ more) = none := by
  cases hl : lineWithin? limit bs with
  | none => rw [readHead?, lineWithin?_append_of_none hl (.inl hfeed) more, Option.bind_none]
  | some l =>
    rw [readHead?, hl, Option.bind_some, Option.map_eq_none_iff] at h
    rw [readHead?, lineWithin?_append_of_some hl more, Option.bind_some, h, Option.map_none]

theorem readHeaderLines_rest {size : Nat} {rest : Bytes} {fields : Fields}
    (h : readHeaderLines limit bs = .complete fields size rest) : rest = bs.drop size := by
  fun_induction readHeaderLines limit bs generalizing fields size rest with
  | case1 => cases h
  | case2 => cases h
  | case3 limit bs l hl =>
    obtain ⟨-, rfl, rfl⟩ := HeaderBlock.complete.inj h
    exact firstLine?_rest (lineWithin?_eq_some hl).1
  | case4 limit bs l hl htext ih =>
    obtain ⟨fields', size', hblock, rfl⟩ := HeaderBlock.addLine_eq_complete h
    rw [ih hblock, firstLine?_rest (lineWithin?_eq_some hl).1, List.drop_drop]

theorem readHead?_rest {lineSize size : Nat} {rest : Bytes} {startLine : StartLine}
    {fields : Fields}
    (h : readHead? limit bs = some ⟨startLine, lineSize, .complete fields size rest⟩) :
    rest = bs.drop (lineSize + size) := by
  obtain ⟨l, hl, hread⟩ := Option.bind_eq_some_iff.mp h
  obtain ⟨_, -, hhead⟩ := Option.map_eq_some_iff.mp hread
  obtain ⟨-, rfl, hblock⟩ := Head.mk.inj hhead
  rw [readHeaderLines_rest hblock, firstLine?_rest (lineWithin?_eq_some hl).1, List.drop_drop]

end Head

section Chunks

theorem trailerLength_of_line {bs : Bytes} {l : Line} (hl : firstLine? bs = some l) :
    trailerLength bs = if l.text.isEmpty then l.size else l.size + trailerLength l.rest := by
  rw [trailerLength]
  split
  · next hnone => simp [hl] at hnone
  · next l' hl' => rw [Option.some.inj (hl.symm.trans hl')]

theorem trailerLength_append {bs : Bytes} (h : lineFeed ∈ bs.drop (trailerLength bs))
    (more : Bytes) : trailerLength (bs ++ more) = trailerLength bs := by
  fun_induction trailerLength bs with
  | case1 bs hnone =>
    obtain ⟨l, hl⟩ := exists_firstLine? (List.mem_of_mem_drop h)
    simp [hl] at hnone
  | case2 bs l hl htext =>
    rw [trailerLength_of_line (firstLine?_append_of_some hl more), if_pos htext]
  | case3 bs l hl htext ih =>
    rw [← List.drop_drop, ← firstLine?_rest hl] at h
    rw [trailerLength_of_line (firstLine?_append_of_some hl more), if_neg htext, ih h]

theorem ChunkEnd.append_of_ended {bs rest : Bytes} {k : Nat} (h : ChunkEnd.of bs = .ended k rest)
    (more : Bytes) : ChunkEnd.of (bs ++ more) = .ended k (rest ++ more) ∧ rest = bs.drop k := by
  unfold ChunkEnd.of at h
  split at h
  · obtain ⟨rfl, rfl⟩ := ChunkEnd.ended.inj h
    exact ⟨rfl, rfl⟩
  · obtain ⟨rfl, rfl⟩ := ChunkEnd.ended.inj h
    exact ⟨rfl, rfl⟩
  · cases h
  · cases h
  · cases h

theorem ChunkEnd.append_of_broken {bs : Bytes} (h : ChunkEnd.of bs = .broken) (more : Bytes) :
    ChunkEnd.of (bs ++ more) = .broken := by
  rcases bs with _ | ⟨a, _ | ⟨b, tail⟩⟩
  · cases h
  · by_cases hlf : a = 10
    · subst hlf
      cases h
    · by_cases hcr : a = 13
      · subst hcr
        cases h
      · simp [ChunkEnd.of, hlf, hcr]
  · by_cases hlf : a = 10
    · subst hlf
      cases h
    · by_cases hcrlf : a = 13 ∧ b = 10
      · obtain ⟨rfl, rfl⟩ := hcrlf
        cases h
      · unfold ChunkEnd.of
        split <;> simp_all

theorem scanChunks_of_bad_size {bs : Bytes} {l : Line} (hl : firstLine? bs = some l)
    (hn : chunkSize? l.text = none) (pos : Nat) :
    scanChunks pos bs = (⟨[], pos⟩, .malformed pos) := by
  rw [scanChunks]
  split
  · next hnone => simp [hl] at hnone
  · next l' hl' =>
    obtain rfl := Option.some.inj (hl.symm.trans hl')
    rw [hn]

theorem scanChunks_of_broken {bs tail : Bytes} {l : Line} {n : Nat} {byte : UInt8}
    (hl : firstLine? bs = some l) (hn : chunkSize? l.text = some (n + 1))
    (hdrop : l.rest.drop n = byte :: tail) (he : ChunkEnd.of tail = .broken) (pos : Nat) :
    scanChunks pos bs = (⟨[⟨pos + l.size, l.rest.take (n + 1)⟩], pos + l.size + n + 1⟩,
      .malformed (pos + l.size + n + 1)) := by
  rw [scanChunks]
  split
  · next hnone => simp [hl] at hnone
  · next l' hl' =>
    obtain rfl := Option.some.inj (hl.symm.trans hl')
    rw [hn]
    dsimp only
    split
    · next hnil => simp [hdrop] at hnil
    · next byte' tail' hdrop' =>
      obtain ⟨rfl, rfl⟩ := List.cons.inj (hdrop.symm.trans hdrop')
      split
      · next hended => simp [he] at hended
      · next hcut => simp [he] at hcut
      · rfl

theorem le_scanChunks_consumed (pos : Nat) (bs : Bytes) : pos ≤ (scanChunks pos bs).1.consumed := by
  fun_induction scanChunks pos bs with
  | case1 => exact Nat.le_refl _
  | case2 => exact Nat.le_refl _
  | case3 => dsimp only; omega
  | case4 pos bs l hl n hsize start hdrop available => dsimp only [start, available]; omega
  | case5 pos bs l hl n hsize start head tail hdrop chunk stop k rest hend ih =>
    simp only [addChunk, start, stop] at ih ⊢
    omega
  | case6 pos bs l hl n hsize start head tail hdrop chunk stop => dsimp only [start, stop]; omega
  | case7 pos bs l hl n hsize start head tail hdrop chunk stop => dsimp only [start, stop]; omega

theorem length_of_drop {bs tail : Bytes} {n : Nat} {byte : UInt8} (h : bs.drop n = byte :: tail) :
    n + 1 ≤ bs.length := by
  have hlen := congrArg List.length h
  rw [List.length_drop, List.length_cons] at hlen
  omega

theorem drop_succ_of_drop {bs tail : Bytes} {n : Nat} {byte : UInt8}
    (h : bs.drop n = byte :: tail) : bs.drop (n + 1) = tail ∧ (bs.take (n + 1)).length = n + 1 := by
  refine ⟨?_, List.length_take_of_le (length_of_drop h)⟩
  rw [← List.drop_drop, h]
  rfl

theorem scanChunks_append_of_ended {bs tail rest : Bytes} {l : Line} {n k : Nat} {byte : UInt8}
    (hl : firstLine? bs = some l) (hn : chunkSize? l.text = some (n + 1))
    (hdrop : l.rest.drop n = byte :: tail) (he : ChunkEnd.of tail = .ended k rest) (pos : Nat)
    (more : Bytes) : scanChunks pos (bs ++ more) = addChunk ⟨pos + l.size, l.rest.take (n + 1)⟩
      (scanChunks (pos + l.size + n + 1 + k) (rest ++ more)) := by
  obtain ⟨htail, hlen⟩ := drop_succ_of_drop hdrop
  have hsplit : l.rest ++ more = l.rest.take (n + 1) ++ (tail ++ more) := by
    rw [← htail, ← List.append_assoc, List.take_append_drop]
  have hne : l.rest.take (n + 1) ≠ [] := List.ne_nil_of_length_pos (by omega)
  have hscan :=
    scanChunks_of_chunk (firstLine?_append_of_some hl more) (hn.trans (by rw [hlen])) hne
    hsplit (ChunkEnd.append_of_ended he more).1 pos
  rwa [hlen] at hscan

theorem scanChunks_append_of_broken {bs tail : Bytes} {l : Line} {n : Nat} {byte : UInt8}
    (hl : firstLine? bs = some l) (hn : chunkSize? l.text = some (n + 1))
    (hdrop : l.rest.drop n = byte :: tail) (he : ChunkEnd.of tail = .broken) (pos : Nat)
    (more : Bytes) : scanChunks pos (bs ++ more) =
      (⟨[⟨pos + l.size, l.rest.take (n + 1)⟩], pos + l.size + n + 1⟩,
        .malformed (pos + l.size + n + 1)) := by
  have hle := length_of_drop hdrop
  have hmore : (l.rest ++ more).drop n = byte :: (tail ++ more) := by
    rw [List.drop_append_of_le_length (by omega), hdrop, List.cons_append]
  rw [scanChunks_of_broken (firstLine?_append_of_some hl more) hn hmore
    (ChunkEnd.append_of_broken he more), List.take_append_of_le_length hle]

theorem scanChunks_append {pos : Nat} {bs : Bytes} (hend : (scanChunks pos bs).2 ≠ .truncated)
    (hfeed : lineFeed ∈ bs.drop ((scanChunks pos bs).1.consumed - pos)) (more : Bytes) :
    scanChunks pos (bs ++ more) = scanChunks pos bs := by
  fun_induction scanChunks pos bs with
  | case1 => exact absurd rfl hend
  | case2 pos bs l hl hsize =>
    exact scanChunks_of_bad_size (firstLine?_append_of_some hl more) hsize pos
  | case3 pos bs l hl hsize =>
    have htrailer : pos + l.size + trailerLength l.rest - pos = l.size + trailerLength l.rest := by
      omega
    dsimp only at hfeed
    rw [htrailer, ← List.drop_drop, ← firstLine?_rest hl] at hfeed
    rw [scanChunks_of_zero (firstLine?_append_of_some hl more) hsize, trailerLength_append hfeed]
  | case4 => exact absurd rfl hend
  | case5 pos bs l hl n hsize start head tail hdrop chunk stop k rest hended ih =>
    have htail := (drop_succ_of_drop hdrop).1
    have hrest := (ChunkEnd.append_of_ended hended more).2
    have hle := le_scanChunks_consumed (stop + k) rest
    have hfeed : lineFeed ∈ rest.drop ((scanChunks (stop + k) rest).1.consumed - (stop + k)) := by
      have hplace : (scanChunks (stop + k) rest).1.consumed - pos = l.size + (n + 1 + (k +
          ((scanChunks (stop + k) rest).1.consumed - (stop + k)))) := by
        simp only [start, stop] at hle ⊢
        omega
      rw [addChunk, hplace, ← List.drop_drop, ← firstLine?_rest hl, ← List.drop_drop, htail,
        ← List.drop_drop, ← hrest] at hfeed
      exact hfeed
    rw [scanChunks_append_of_ended hl hsize hdrop hended]
    exact congrArg (addChunk chunk) (ih hend hfeed)
  | case6 => exact absurd rfl hend
  | case7 pos bs l hl n hsize start head tail hdrop chunk stop hbroken =>
    exact scanChunks_append_of_broken hl hsize hdrop hbroken pos more

theorem decodeChunks_eq_ok_iff {bs : Bytes} {b : ChunkedBody} :
    decodeChunks bs = .ok b ↔ scanChunks 0 bs = (b, .complete) := by
  unfold decodeChunks
  rcases scanChunks 0 bs with ⟨body, outcome⟩
  cases outcome <;> simp

theorem decodeChunks_eq_malformed_iff {bs : Bytes} {offset : Nat} {b : ChunkedBody} :
    decodeChunks bs = .error (.malformed offset b) ↔ scanChunks 0 bs = (b, .malformed offset) := by
  unfold decodeChunks
  rcases scanChunks 0 bs with ⟨body, outcome⟩
  cases outcome <;> simp [and_comm]

theorem decodeChunks_eq_truncated_iff {bs : Bytes} {b : ChunkedBody} :
    decodeChunks bs = .error (.truncated b) ↔ scanChunks 0 bs = (b, .truncated) := by
  unfold decodeChunks
  rcases scanChunks 0 bs with ⟨body, outcome⟩
  cases outcome <;> simp

end Chunks

end HttpCapture
