import HttpCapture.Proofs.ChunkPlaces

/-! The language of chunked bodies. What a body looks like is said here without a reader: lines with
their endings, sizes by their digits, trailers by their lines and bodies by their chunks. The reader
accepts this language and nothing else, and reports the places that the derivation gives. -/

namespace HttpCapture

/-- A line with this text, together with its ending. -/
inductive EndedLine (text : Bytes) : Bytes → Prop
  | returned (h : lineFeed ∉ text) : EndedLine text (text ++ [carriageReturn, lineFeed])
  | bare (h : lineFeed ∉ text) (hlast : text.getLast? ≠ some carriageReturn) :
      EndedLine text (text ++ [lineFeed])

theorem EndedLine.firstLine?_append {text line : Bytes} (h : EndedLine text line) (rest : Bytes) :
    firstLine? (line ++ rest) = some ⟨text, line.length, rest⟩ := by
  cases h with
  | returned h =>
    rw [List.length_append]
    exact HttpCapture.firstLine?_append h rest
  | bare h hlast =>
    rw [firstLine?, List.append_assoc, List.singleton_append, cutAt_append h]
    simp [dropReturn, hlast]

theorem exists_endedLine {bs : Bytes} {l : Line} (h : firstLine? bs = some l) :
    ∃ line, EndedLine l.text line ∧ line.length = l.size ∧ bs = line ++ l.rest := by
  obtain ⟨⟨whole, rest⟩, hcut, rfl⟩ := Option.map_eq_some_iff.mp h
  have hfeed := not_mem_of_cutAt hcut
  have hsplit : bs = whole ++ [lineFeed] ++ rest := by
    rw [cutAt_eq_append hcut, List.append_assoc, List.singleton_append]
  refine ⟨whole ++ [lineFeed], ?_, by simp, hsplit⟩
  by_cases hlast : whole.getLast? = some carriageReturn
  · have hwhole : whole.dropLast ++ [carriageReturn] = whole :=
      List.dropLast_append_getLast? _ hlast
    have hended : EndedLine whole.dropLast (whole.dropLast ++ [carriageReturn, lineFeed]) :=
      .returned fun hm => hfeed (List.dropLast_subset _ hm)
    rw [← List.singleton_append, ← List.append_assoc, hwhole] at hended
    simpa [dropReturn, hlast] using hended
  · simpa [dropReturn, hlast] using EndedLine.bare hfeed hlast

/-- A hexadecimal digit of either case and its value. -/
inductive HexDigit (b : UInt8) : Nat → Prop
  | decimal {v : Nat} (hv : v < 10) (hb : b.toNat = 48 + v) : HexDigit b v
  | upper {v : Nat} (hv : v < 6) (hb : b.toNat = 65 + v) : HexDigit b (10 + v)
  | lower {v : Nat} (hv : v < 6) (hb : b.toNat = 97 + v) : HexDigit b (10 + v)

theorem hexValue?_eq_some_iff {b : UInt8} {v : Nat} : hexValue? b = some v ↔ HexDigit b v := by
  simp only [hexValue?, isDigitByte, Bool.and_eq_true, decide_eq_true_eq, UInt8.le_iff_toNat_le,
    UInt8.reduceToNat]
  constructor
  · intro h
    split at h
    · obtain rfl := Option.some.inj h
      exact .decimal (by omega) (by omega)
    · split at h
      · obtain rfl : 10 + (b.toNat - 65) = v := by
          have hv := Option.some.inj h
          omega
        exact .upper (by omega) (by omega)
      · split at h
        · obtain rfl : 10 + (b.toNat - 97) = v := by
            have hv := Option.some.inj h
            omega
          exact .lower (by omega) (by omega)
        · cases h
  · rintro (⟨hv, hb⟩ | ⟨hv, hb⟩ | ⟨hv, hb⟩)
    · rw [if_pos (by omega), hb, Nat.add_sub_cancel_left]
    · rw [if_neg (by omega), if_pos (by omega)]
      congr 1
      omega
    · rw [if_neg (by omega), if_neg (by omega), if_pos (by omega)]
      congr 1
      omega

/-- Hexadecimal digits, the most significant one in front, and the number they spell. -/
inductive HexNumber : Bytes → Nat → Prop
  | nil : HexNumber [] 0
  | snoc {digits : Bytes} {n v : Nat} {b : UInt8} (h : HexNumber digits n) (hb : HexDigit b v) :
      HexNumber (digits ++ [b]) (n * 16 + v)

theorem HexNumber.mapM_hexValue? {digits : Bytes} {n : Nat} (h : HexNumber digits n) :
    ∃ ds, digits.mapM hexValue? = some ds ∧ ds.foldl (· * 16 + ·) 0 = n := by
  induction h with
  | nil => exact ⟨[], rfl, rfl⟩
  | @snoc digits n v b h hb ih =>
    obtain ⟨ds, hds, hvalue⟩ := ih
    refine ⟨ds ++ [v], ?_, by simp [hvalue]⟩
    simp [List.mapM_append, hds, hexValue?_eq_some_iff.mpr hb]

theorem HexNumber.append {front digits : Bytes} {n : Nat} {ds : List Nat} (h : HexNumber front n)
    (hds : digits.mapM hexValue? = some ds) :
    HexNumber (front ++ digits) (ds.foldl (· * 16 + ·) n) := by
  induction digits generalizing front n ds with
  | nil =>
    obtain rfl : ds = [] := by simpa using hds.symm
    simpa using h
  | cons b digits ih =>
    rw [List.mapM_cons] at hds
    obtain ⟨v, hv, hrest⟩ := Option.bind_eq_some_iff.mp hds
    obtain ⟨vs, hvs, hcons⟩ := Option.bind_eq_some_iff.mp hrest
    obtain rfl : v :: vs = ds := Option.some.inj hcons
    have hstep := ih (h.snoc (hexValue?_eq_some_iff.mp hv)) hvs
    rwa [List.append_assoc] at hstep

theorem readHex?_eq_some_iff {digits : Bytes} {n : Nat} :
    readHex? digits = some n ↔ digits ≠ [] ∧ HexNumber digits n ∧ n < wordBound := by
  unfold readHex?
  constructor
  · intro h
    split at h
    · cases h
    · next hne =>
      obtain ⟨ds, hds, hfits⟩ := Option.bind_eq_some_iff.mp h
      dsimp only at hfits
      split at hfits
      · next hlt =>
        obtain rfl := Option.some.inj hfits
        exact ⟨fun hnil => hne (by simp [hnil]), HexNumber.nil.append hds, hlt⟩
      · cases hfits
  · rintro ⟨hne, hdigits, hfits⟩
    obtain ⟨ds, hds, hvalue⟩ := hdigits.mapM_hexValue?
    simp [hne, hds, hvalue, hfits]

/-- A list is what trimming leaves of it, between members that trimming takes. -/
theorem exists_append_trimBy {α : Type} (p : α → Bool) (l : List α) :
    ∃ before after, (∀ a ∈ before, p a = true) ∧ (∀ a ∈ after, p a = true) ∧
      l = before ++ trimBy p l ++ after := by
  let inner := (l.dropWhile p).reverse
  have hinner : trimBy p l ++ (inner.takeWhile p).reverse = l.dropWhile p := by
    rw [trimBy, ← List.reverse_append, List.takeWhile_append_dropWhile, List.reverse_reverse]
  refine ⟨l.takeWhile p, (inner.takeWhile p).reverse, fun a => List.mem_takeWhile_imp,
    fun a ha => ?_, ?_⟩
  · exact List.mem_takeWhile_imp (List.mem_reverse.mp ha)
  · rw [List.append_assoc, hinner, List.takeWhile_append_dropWhile]

/-- The text of a line that says a size: a number that fits 64 bits between blanks, and behind a
semicolon anything. -/
inductive SizeText : Bytes → Nat → Prop
  | intro {before digits after extension : Bytes} {n : Nat}
      (hbefore : ∀ b ∈ before, isBlankByte b = true) (hafter : ∀ b ∈ after, isBlankByte b = true)
      (hextension : ∀ b ∈ extension.head?, b = 0x3b) (hne : digits ≠ [])
      (hdigits : HexNumber digits n) (hfits : n < wordBound) :
      SizeText (before ++ digits ++ after ++ extension) n

theorem HexDigit.plain {b : UInt8} {v : Nat} (h : HexDigit b v) :
    isBlankByte b = false ∧ b ≠ 0x3b := by
  have hrange : 48 ≤ b.toNat ∧ b.toNat ≤ 57 ∨ 65 ≤ b.toNat := by
    rcases h with ⟨hv, hb⟩ | ⟨hv, hb⟩ | ⟨hv, hb⟩ <;> omega
  simp only [isBlankByte, Bool.or_eq_false_iff, beq_eq_false_iff_ne, ne_eq, ← UInt8.toNat_inj,
    UInt8.reduceToNat]
  omega

theorem HexNumber.plain {digits : Bytes} {n : Nat} (h : HexNumber digits n) :
    ∀ b ∈ digits, isBlankByte b = false ∧ b ≠ 0x3b := by
  induction h with
  | nil => simp
  | snoc h hb ih =>
    intro c hc
    rcases List.mem_append.mp hc with hc | hc
    · exact ih c hc
    · rw [List.mem_singleton.mp hc]
      exact hb.plain

theorem chunkSize?_eq_some_iff {text : Bytes} {n : Nat} :
    chunkSize? text = some n ↔ SizeText text n := by
  constructor
  · intro h
    obtain ⟨hne, hdigits, hfits⟩ := readHex?_eq_some_iff.mp h
    obtain ⟨before, after, hbefore, hafter, hsize⟩ :=
      exists_append_trimBy isBlankByte (text.takeWhile (· != 0x3b))
    have hextension : ∀ b ∈ (text.dropWhile (· != 0x3b)).head?, b = 0x3b := by
      intro b hb
      have hstop := List.head?_dropWhile_not (· != 0x3b) text
      rw [Option.mem_def.mp hb] at hstop
      simpa using hstop
    have hsplit := SizeText.intro hbefore hafter hextension hne hdigits hfits
    rwa [← hsize, List.takeWhile_append_dropWhile] at hsplit
  · rintro ⟨hbefore, hafter, hextension, hne, hdigits, hfits⟩
    next before digits after extension =>
    have hblank {b : UInt8} (hb : isBlankByte b = true) : b ≠ 0x3b := by
      rintro rfl
      cases hb
    have hplain : ∀ b ∈ before ++ digits ++ after, (b != 0x3b) = true := by
      intro b hb
      rw [bne_iff_ne]
      rcases List.mem_append.mp hb with hb | hb
      · exact (List.mem_append.mp hb).elim (fun hb => hblank (hbefore b hb))
          fun hb => (hdigits.plain b hb).2
      · exact hblank (hafter b hb)
    have hcut : extension.takeWhile (· != 0x3b) = [] := by
      cases extension with
      | nil => rfl
      | cons b extension => simp [hextension b rfl]
    have htrimmed : Trimmed isBlankByte digits :=
      trimmed_of_forall fun b hb => (hdigits.plain b hb).1
    rw [chunkSize?, List.takeWhile_append_of_pos hplain, hcut, List.append_nil, trimBytes,
      trimBy_append hbefore hafter htrimmed]
    exact readHex?_eq_some_iff.mpr ⟨hne, hdigits, hfits⟩

/-- Trailer lines and what follows them. They reach up to the first empty line or, where none is,
take all whole lines. -/
inductive Trailer : Bytes → Bytes → Prop
  | ended {line rest : Bytes} (hline : EndedLine [] line) : Trailer line rest
  | field {text line lines rest : Bytes} (hne : text ≠ []) (hline : EndedLine text line)
      (h : Trailer lines rest) : Trailer (line ++ lines) rest
  | cut {rest : Bytes} (h : lineFeed ∉ rest) : Trailer [] rest

theorem Trailer.trailerLength_append {lines rest : Bytes} (h : Trailer lines rest) :
    trailerLength (lines ++ rest) = lines.length := by
  induction h with
  | ended hline =>
    rw [trailerLength_of_line (hline.firstLine?_append _)]
    rfl
  | field hne hline h ih =>
    rw [List.append_assoc, trailerLength_of_line (hline.firstLine?_append _), List.length_append,
      ← ih]
    simp [hne]
  | cut h =>
    rw [List.nil_append, trailerLength]
    split
    · rfl
    · next l hl => simp [firstLine?_eq_none_iff.mpr h] at hl

theorem trailer_of_length (bs : Bytes) :
    ∃ lines rest, Trailer lines rest ∧ bs = lines ++ rest ∧ lines.length = trailerLength bs := by
  fun_induction trailerLength bs with
  | case1 bs hnone => exact ⟨[], bs, .cut (firstLine?_eq_none_iff.mp hnone), rfl, rfl⟩
  | case2 bs l hl htext =>
    obtain ⟨line, hline, hsize, hsplit⟩ := exists_endedLine hl
    rw [List.isEmpty_iff.mp htext] at hline
    exact ⟨line, l.rest, .ended hline, hsplit, hsize⟩
  | case3 bs l hl htext ih =>
    obtain ⟨line, hline, hsize, hsplit⟩ := exists_endedLine hl
    obtain ⟨lines, rest, htrailer, hrest, hlength⟩ := ih
    refine ⟨line ++ lines, rest, .field (fun hnil => htext (by simp [hnil])) hline htrailer, ?_, ?_⟩
    · rw [hsplit, hrest, List.append_assoc]
    · rw [List.length_append, hsize, hlength]

/-- Bytes that stand at a place and start with a chunked body, the chunks with the places of their
data, and the place where the body, its trailer included, ends. -/
inductive Chunked : Nat → Bytes → List Chunk → Nat → Prop
  | last {pos : Nat} {text line lines rest : Bytes} (hline : EndedLine text line)
      (hsize : SizeText text 0) (htrailer : Trailer lines rest) :
      Chunked pos (line ++ lines ++ rest) [] (pos + line.length + lines.length)
  | chunk {pos stop : Nat} {text line data ending rest : Bytes} {chunks : List Chunk}
      (hline : EndedLine text line) (hsize : SizeText text data.length) (hne : data ≠ [])
      (hending : ending = [carriageReturn, lineFeed] ∨ ending = [lineFeed])
      (h : Chunked (pos + line.length + data.length + ending.length) rest chunks stop) :
      Chunked pos (line ++ data ++ ending ++ rest) (⟨pos + line.length, data⟩ :: chunks) stop

theorem ChunkEnd.of_ending {ending : Bytes}
    (h : ending = [carriageReturn, lineFeed] ∨ ending = [lineFeed]) (rest : Bytes) :
    ChunkEnd.of (ending ++ rest) = .ended ending.length rest := by
  rcases h with rfl | rfl <;> rfl

theorem ChunkEnd.exists_ending {bs rest : Bytes} {k : Nat} (h : ChunkEnd.of bs = .ended k rest) :
    ∃ ending, (ending = [carriageReturn, lineFeed] ∨ ending = [lineFeed]) ∧
      ending.length = k ∧ bs = ending ++ rest := by
  unfold ChunkEnd.of at h
  split at h
  · obtain ⟨rfl, rfl⟩ := ChunkEnd.ended.inj h
    exact ⟨_, .inl rfl, rfl, rfl⟩
  · obtain ⟨rfl, rfl⟩ := ChunkEnd.ended.inj h
    exact ⟨_, .inr rfl, rfl, rfl⟩
  · cases h
  · cases h
  · cases h

theorem Chunked.scanChunks_eq {pos stop : Nat} {bs : Bytes} {chunks : List Chunk}
    (h : Chunked pos bs chunks stop) : scanChunks pos bs = (⟨chunks, stop⟩, .complete) := by
  induction h with
  | last hline hsize htrailer =>
    rw [List.append_assoc, scanChunks_of_zero (hline.firstLine?_append _)
      (chunkSize?_eq_some_iff.mpr hsize), htrailer.trailerLength_append]
  | @chunk pos stop text line data ending rest chunks hline hsize hne hending h ih =>
    have hl := hline.firstLine?_append (data ++ (ending ++ rest))
    rw [List.append_assoc, List.append_assoc, scanChunks_of_chunk hl
      (chunkSize?_eq_some_iff.mpr hsize) hne rfl (ChunkEnd.of_ending hending rest), ih]
    rfl

theorem chunked_of_scanChunks {pos : Nat} {bs : Bytes} (h : (scanChunks pos bs).2 = .complete) :
    Chunked pos bs (scanChunks pos bs).1.chunks (scanChunks pos bs).1.consumed := by
  fun_induction scanChunks pos bs with
  | case1 => cases h
  | case2 => cases h
  | case3 pos bs l hl hsize =>
    obtain ⟨line, hline, hlength, rfl⟩ := exists_endedLine hl
    obtain ⟨lines, rest, htrailer, hrest, htrailerLength⟩ := trailer_of_length l.rest
    have hlast : Chunked pos (line ++ lines ++ rest) [] (pos + line.length + lines.length) :=
      .last hline (chunkSize?_eq_some_iff.mp hsize) htrailer
    rwa [List.append_assoc, ← hrest, hlength, htrailerLength] at hlast
  | case4 => cases h
  | case5 pos bs l hl n hsize start head tail hdrop chunk stop k rest hend ih =>
    obtain ⟨line, hline, hlength, rfl⟩ := exists_endedLine hl
    obtain ⟨ending, hending, rfl, htail⟩ := ChunkEnd.exists_ending hend
    obtain ⟨hdropped, htaken⟩ := drop_succ_of_drop hdrop
    have hsplit : l.rest = l.rest.take (n + 1) ++ (ending ++ rest) := by
      rw [← htail, ← hdropped, List.take_append_drop]
    have hsizeText : SizeText l.text (l.rest.take (n + 1)).length := by
      rw [htaken]
      exact chunkSize?_eq_some_iff.mp hsize
    have hrest : Chunked (pos + line.length + (l.rest.take (n + 1)).length + ending.length) rest
        (scanChunks (stop + ending.length) rest).1.chunks
        (scanChunks (stop + ending.length) rest).1.consumed := by
      rw [hlength, htaken]
      exact ih h
    have hchunk :=
      Chunked.chunk hline hsizeText (List.ne_nil_of_length_pos (by omega)) hending hrest
    rwa [List.append_assoc, List.append_assoc, ← hsplit, hlength] at hchunk
  | case6 => cases h
  | case7 => cases h

/-- Reading succeeds on chunked bodies alone and tells where their data and their end is. Whatever
the input, all that is reported lies in it, and no place is ever out of range. -/
theorem decodeChunks_grammar (bs : Bytes) :
    (∀ body, decodeChunks bs = .ok body ↔ Chunked 0 bs body.chunks body.consumed) ∧
      ChunksIn bs (bodyRead (decodeChunks bs)).chunks ∧
      (bodyRead (decodeChunks bs)).consumed ≤ bs.length ∧
      (∀ offset before, decodeChunks bs = .error (.malformed offset before) → offset ≤ bs.length) ∧
      (bs.length < wordBound → decodePlaces? bs = some (decodeChunks bs)) := by
  have hconsumed : (scanChunks 0 bs).1.consumed ≤ bs.length := by
    have hle := scanChunks_consumed_le 0 bs
    omega
  rw [bodyRead_decodeChunks]
  refine ⟨fun body => decodeChunks_eq_ok_iff.trans ⟨fun h => ?_, fun h => h.scanChunks_eq⟩,
    (chunksIn_scanChunks rfl).1, hconsumed, fun offset before h => ?_, decodePlaces?_eq⟩
  · have hread := chunked_of_scanChunks (congrArg Prod.snd h)
    rwa [h] at hread
  · have hscan := decodeChunks_eq_malformed_iff.mp h
    rw [hscan] at hconsumed
    rwa [scanChunks_malformed (congrArg Prod.snd hscan), hscan]

/-- A chunk with an extension before the last one, and a chunk followed by a
byte of no line ending. -/
theorem decodeChunks_grammar_of_stray_byte :
    let whole : Bytes := [0x31, 0x3b, 0x78, 10, 0x61, 13, 10, 0x30, 10, 10]
    let stray : Bytes := [0x31, 10, 0x61, 0x78]
    Chunked 0 whole [⟨4, [0x61]⟩] whole.length ∧
      decodeChunks stray = .error (.malformed 3 ⟨[⟨2, [0x61]⟩], 3⟩) ∧ 3 ≤ stray.length ∧
      stray.length < wordBound ∧ decodePlaces? stray = some (decodeChunks stray) := by
  intro whole stray
  have hwhole : decodeChunks whole = .ok ⟨[⟨4, [0x61]⟩], whole.length⟩ := by decide +kernel
  have hstray : decodeChunks stray = .error (.malformed 3 ⟨[⟨2, [0x61]⟩], 3⟩) := by decide +kernel
  have hlength : stray.length < wordBound := by decide
  obtain ⟨hgrammar, -⟩ := decodeChunks_grammar whole
  obtain ⟨-, -, -, hoffset, hplaces⟩ := decodeChunks_grammar stray
  exact ⟨(hgrammar _).mp hwhole, hstray, hoffset _ _ hstray, hlength, hplaces hlength⟩

end HttpCapture
