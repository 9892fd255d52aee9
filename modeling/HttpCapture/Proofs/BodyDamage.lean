import HttpCapture.Proofs.ChunksTaken
import HttpCapture.Proofs.CutStreams

/-! What is wrong with a body is found twice: when the message is read, with the rest of the
stream in view, and when the content is taken, from the bytes of the body alone. Both times the
same is found. A chunked body ends where its framing breaks, so that taken by itself it is cut
where it was broken before. -/

namespace HttpCapture

namespace Exchange

variable {c : Completeness} {stream rest : Bytes} {headCut : Prop} {e : Exchange}

/-- What is wrong with the content of a message is what its diagnostics say, where `rest` is all
that follows its head. -/
structure TellsDamage (c : Completeness) (stream rest : Bytes) (headCut : Prop) (e : Exchange) :
    Prop where
  unusable : e.content c stream = .error .notExtractable ↔ headCut ∨ ∃ declared available,
    .payloadTruncated (some declared) available ∈ e.diagnostics ∧
      c.fallsShort available declared = true
  complete : ∀ declared available, e.content c stream ≠
    .error (.payloadTruncated declared available)
  corrupt : (∃ recovered, e.content c stream = .error (.chunkFramingCorrupt recovered)) ↔
    ∃ offset, .chunkFramingCorrupt offset ∈ e.diagnostics
  /-- The bytes recovered are those that were found when all of the rest was read. -/
  recovered : ∀ recovered, e.content c stream = .error (.chunkFramingCorrupt recovered) →
    ∃ err, decodeChunks rest = .error err ∧ recovered = err.before.data
  chunksComplete : e.chunksComplete = true ↔
    e.chunked = true ∧ ¬headCut ∧ ∀ offset, .chunkFramingCorrupt offset ∉ e.diagnostics

theorem content_of_unframed {body : Bytes} (he : e.extractable = true)
    (hok : e.unframed c (e.rawBody stream) = .ok body) {err : ContentError}
    (h : e.content c stream = .error err) : ∃ reason, err = .decompressionFailure reason := by
  unfold content at h
  rw [he, hok] at h
  dsimp only at h
  split at h
  · next hnot => simp at hnot
  · split at h
    · cases hgzip : Gzip.decompress body with
      | error failure =>
        rw [hgzip] at h
        exact ⟨_, (Except.error.inj h).symm⟩
      | ok => rw [hgzip] at h; cases h
    · cases h

namespace TellsDamage

theorem of_sound {body : Bytes} (he : e.extractable = true)
    (hok : e.unframed c (e.rawBody stream) = .ok body) (hcut : ¬headCut)
    (hdiagnostics : ∀ d ∈ e.diagnostics, ∃ declared available,
      d = .payloadTruncated (some declared) available ∧ c.fallsShort available declared = false)
    (hcomplete : e.chunksComplete = e.chunked) : e.TellsDamage c stream rest headCut := by
  have hcontent : ∀ {err}, e.content c stream = .error err →
      ∃ reason, err = .decompressionFailure reason := content_of_unframed he hok
  have hcorrupt : ∀ offset, .chunkFramingCorrupt offset ∉ e.diagnostics := by
    intro offset hmem
    obtain ⟨_, _, hd, -⟩ := hdiagnostics _ hmem
    cases hd
  refine ⟨⟨fun h => ?_, fun h => ?_⟩, fun _ _ h => ?_, ⟨fun ⟨_, h⟩ => ?_, fun ⟨offset, h⟩ => ?_⟩,
    fun _ h => ?_, by simp [hcomplete, hcut, hcorrupt]⟩
  · obtain ⟨_, h⟩ := hcontent h
    cases h
  · obtain ⟨declared, available, hmem, hshort⟩ := h.resolve_left hcut
    obtain ⟨_, _, hd, henough⟩ := hdiagnostics _ hmem
    cases hd
    exact absurd hshort (by simp [henough])
  · obtain ⟨_, h⟩ := hcontent h
    cases h
  · obtain ⟨_, h⟩ := hcontent h
    cases h
  · exact absurd h (hcorrupt offset)
  · obtain ⟨_, h⟩ := hcontent h
    cases h

theorem of_unusable (he : e.extractable = false)
    (hreason : headCut ∨ ∃ declared available,
      .payloadTruncated (some declared) available ∈ e.diagnostics ∧
        c.fallsShort available declared = true)
    (hcorrupt : ∀ offset, .chunkFramingCorrupt offset ∉ e.diagnostics)
    (hchunked : e.chunked = false) (hcomplete : e.chunksComplete = false) :
    e.TellsDamage c stream rest headCut := by
  have hcontent : e.content c stream = .error .notExtractable := by
    rw [content, he]
    rfl
  exact {
    unusable := ⟨fun _ => hreason, fun _ => hcontent⟩
    complete := by simp [hcontent]
    corrupt := by simp [hcontent, hcorrupt]
    recovered := by simp [hcontent]
    chunksComplete := by simp [hcomplete, hchunked] }

theorem of_corrupt {err found : ChunkError} {offset : Option Nat} (he : e.extractable = true)
    (hchunked : e.chunked = true) (halone : decodeChunks (e.rawBody stream) = .error err)
    (hrest : decodeChunks rest = .error found) (hsame : err.before = found.before) (hcut : ¬headCut)
    (hdiagnostics : e.diagnostics = [.chunkFramingCorrupt offset])
    (hcomplete : e.chunksComplete = false) : e.TellsDamage c stream rest headCut := by
  have hcontent : e.content c stream = .error (.chunkFramingCorrupt found.before.data) := by
    rw [content, he, unframed, hchunked, if_pos rfl, halone, ← hsame]
    rfl
  exact {
    unusable := by simp [hcontent, hcut, hdiagnostics]
    complete := by simp [hcontent]
    corrupt := by simp [hcontent, hdiagnostics]
    recovered := by
      intro recovered h
      rw [hcontent, Except.error.injEq, ContentError.chunkFramingCorrupt.injEq] at h
      exact ⟨found, hrest, h.symm⟩
    chunksComplete := by simp [hcomplete, hdiagnostics] }

/-- A compression that cannot be undone is noted apart from what is wrong with the body. -/
theorem note (h : e.TellsDamage c stream rest headCut) (reason : String) :
    (e.note (.decompressionFailure reason)).TellsDamage c stream rest headCut := by
  have hcontent : (e.note (.decompressionFailure reason)).content c stream = e.content c stream :=
    rfl
  have hdiagnostics : (e.note (.decompressionFailure reason)).diagnostics =
      e.diagnostics ++ [.decompressionFailure reason] := rfl
  refine ⟨?_, h.complete, ?_, h.recovered, ?_⟩
  · rw [hcontent, hdiagnostics]
    simpa using h.unusable
  · rw [hcontent, hdiagnostics]
    simpa using h.corrupt
  · rw [hdiagnostics]
    have hchunks := h.chunksComplete
    simpa [Exchange.note] using hchunks

theorem relist (h : e.TellsDamage c stream rest headCut) (i : Nat) (paired : Option Nat) :
    { e with index := i, paired := paired }.TellsDamage c stream rest headCut :=
  ⟨h.unusable, h.complete, h.corrupt, h.recovered, h.chunksComplete⟩

end TellsDamage

/-- A message of which only the head was read. -/
structure Unread (e : Exchange) : Prop where
  body : e.body = []
  extractable : e.extractable = true
  diagnostics : e.diagnostics = []
  chunksComplete : e.chunksComplete = false

theorem Unread.readFields (h : e.Unread) : e.readFields.Unread := by
  obtain ⟨_, _, heq⟩ := e.readFields_eq
  rw [heq]
  exact ⟨h.body, h.extractable, h.diagnostics, h.chunksComplete⟩

/-- What the fields say about a body whose end is known in the given way. -/
theorem framing_says (e : Exchange) (answersHead : Bool) :
    match e.framing answersHead with
    | .none => True
    | .chunked => e.chunked = true
    | .length n => e.chunked = false ∧ e.contentLength = some n
    | .untilClose => e.chunked = false ∧ e.contentLength = none := by
  unfold framing
  cases e.isBodiless answersHead with
  | true => trivial
  | false =>
    cases hchunked : e.chunked with
    | true => rfl
    | false =>
      cases hlength : e.contentLength with
      | some n => exact ⟨rfl, rfl⟩
      | none => cases e.isResponse <;> trivial

end Exchange

namespace Reading

variable {r : Reading}

theorem tellsDamage_readLengthBody {e : Exchange} (he : e.Unread) {start declared : Nat}
    {bs : Bytes} (hbs : r.stream.bytes.drop start = bs) (hchunked : e.chunked = false)
    (hlength : e.contentLength = some declared)
    (hfull : r.limits.completeness.fallsShort declared declared = false) :
    (r.readLengthBody e start declared bs.length).1.TellsDamage r.limits.completeness
      r.stream.bytes bs False := by
  have hraw : ∀ f : Exchange, f.body = BodySegments.insert [] start (min declared bs.length) →
      (f.rawBody r.stream.bytes).length = min declared bs.length := by
    intro f hf
    rw [Exchange.rawBody_of_body hf, hbs, List.length_take]
    omega
  have hok : ∀ f : Exchange, f.body = BodySegments.insert [] start (min declared bs.length) →
      f.chunked = false → f.contentLength = some declared →
      r.limits.completeness.fallsShort (min declared bs.length) declared = false →
      f.unframed r.limits.completeness (f.rawBody r.stream.bytes) =
        .ok (f.rawBody r.stream.bytes) := by
    intro f hf hchunked hlength henough
    simp [Exchange.unframed, hchunked, hlength, hraw f hf, henough]
  have hinsert : e.body.insert start (min declared bs.length) =
      BodySegments.insert [] start (min declared bs.length) := by rw [he.body]
  unfold readLengthBody
  dsimp only
  by_cases hless : min declared bs.length < declared
  · rw [if_pos hless]
    by_cases hshort : r.limits.completeness.fallsShort (min declared bs.length) declared = true
    · rw [if_pos hshort]
      exact .of_unusable rfl
        (.inr ⟨declared, _, List.mem_append_right _ List.mem_cons_self, hshort⟩)
        (by simp [Exchange.note, he.diagnostics]) hchunked he.chunksComplete
    · rw [if_neg hshort]
      have henough := Bool.eq_false_iff.mpr hshort
      refine .of_sound he.extractable (hok _ hinsert hchunked hlength henough) id ?_
        (he.chunksComplete.trans hchunked.symm)
      intro d hd
      rw [Exchange.note, he.diagnostics] at hd
      exact ⟨declared, _, List.mem_singleton.mp hd, henough⟩
  · have hall : min declared bs.length = declared := by omega
    rw [if_neg hless]
    exact .of_sound he.extractable (hok _ hinsert hchunked hlength (by rw [hall]; exact hfull)) id
      (by simp [he.diagnostics]) (he.chunksComplete.trans hchunked.symm)

theorem tellsDamage_readChunkedBody {e : Exchange} (he : e.Unread) {start : Nat} {bs : Bytes}
    (c : Completeness) {stream : Bytes} (hbs : stream.drop start = bs)
    (hchunked : e.chunked = true) :
    (readChunkedBody e start bs).1.TellsDamage c stream bs False := by
  have hraw : ∀ (f : Exchange) (size : Nat), f.body = e.body.insert start size →
      f.rawBody stream = bs.take size := by
    intro f size hf
    rw [he.body] at hf
    rw [Exchange.rawBody_of_body hf, hbs]
  have hnoted : ∀ offset, e.diagnostics ++ [.chunkFramingCorrupt offset] =
      [.chunkFramingCorrupt offset] := by simp [he.diagnostics]
  unfold readChunkedBody
  cases hdecode : decodeChunks bs with
  | ok body =>
    let f := { e with body := e.body.insert start body.consumed, chunksComplete := true }
    have hok : f.unframed c (f.rawBody stream) = .ok body.data := by
      rw [hraw f _ rfl, Exchange.unframed, if_pos hchunked, decodeChunks_take_of_ok hdecode]
    exact .of_sound he.extractable hok id (by simp [he.diagnostics]) hchunked.symm
  | error err =>
    cases err with
    | truncated before =>
      let f := { e with body := e.body.insert start bs.length }.note (.chunkFramingCorrupt none)
      have halone : decodeChunks (f.rawBody stream) = .error (.truncated before) := by
        rw [hraw f _ rfl, List.take_length, hdecode]
      exact .of_corrupt he.extractable hchunked halone hdecode rfl id
        (hnoted none) he.chunksComplete
    | malformed offset before =>
      let f := { e with body := e.body.insert start offset }.note
        (.chunkFramingCorrupt (some offset))
      have halone : decodeChunks (f.rawBody stream) = .error (.truncated before) := by
        rw [hraw f _ rfl, decodeChunks_take_of_malformed hdecode]
      exact .of_corrupt he.extractable hchunked halone hdecode rfl id (hnoted _) he.chunksComplete

theorem tellsDamage_readBody {e : Exchange} (he : e.Unread) {start : Nat} {bs : Bytes}
    {answersHead : Bool} (hbs : r.stream.bytes.drop start = bs)
    (hframed : e.readFields.framing answersHead ≠ .none)
    (hfull : ∀ n ∈ e.readFields.contentLength, r.limits.completeness.fallsShort n n = false) :
    (r.readBody e start bs answersHead).1.TellsDamage r.limits.completeness r.stream.bytes
      bs False := by
  have he := he.readFields
  have hsays := e.readFields.framing_says answersHead
  unfold readBody
  generalize e.readFields = e at he hframed hfull hsays ⊢
  dsimp only
  cases hframing : e.framing answersHead with
  | none => exact absurd hframing hframed
  | chunked =>
    rw [hframing] at hsays
    exact tellsDamage_readChunkedBody he _ hbs hsays
  | length n =>
    rw [hframing] at hsays
    exact tellsDamage_readLengthBody he hbs hsays.1 hsays.2 (hfull n hsays.2)
  | untilClose =>
    rw [hframing] at hsays
    let f := { e with body := e.body.insert start bs.length }
    have hbody : f.body = BodySegments.insert [] start bs.length := by simp only [f, he.body]
    have hok : f.unframed r.limits.completeness (f.rawBody r.stream.bytes) = .ok bs := by
      rw [Exchange.rawBody_of_body hbody, hbs, List.take_length]
      simp [f, Exchange.unframed, hsays.1, hsays.2]
    exact .of_sound he.extractable hok id (by simp [he.diagnostics])
      (he.chunksComplete.trans hsays.1.symm)

/-- A message of which the start line and the fields are known, and the length of its head. -/
def headOnly (r : Reading) (pos headSize : Nat) (startLine : StartLine) (fields : Fields) :
    Exchange :=
  { r.begin pos startLine with fields := fields, headLength := headSize }

theorem unread_headOnly (r : Reading) (pos headSize : Nat) (startLine : StartLine)
    (fields : Fields) : (r.headOnly pos headSize startLine fields).Unread :=
  ⟨rfl, rfl, rfl, rfl⟩

theorem says_wholeMessage (r : Reading) (pos headSize : Nat) (startLine : StartLine)
    (fields : Fields) (bs : Bytes) (answersHead : Bool) :
    let e := (r.wholeMessage pos headSize startLine fields bs answersHead).1
    let head := r.headOnly pos headSize startLine fields
    e.headLength = headSize ∧ e.contentLength = head.readFields.contentLength ∧
      e.framing = head.readFields.framing := by
  intro e head
  obtain ⟨_, _, hfields⟩ := head.readFields_eq
  obtain ⟨_, _, _, hbody⟩ := r.exists_readBody_eq head (pos + headSize) bs answersHead
  have he : e = r.checkContent (r.locate (r.readBody head (pos + headSize) bs answersHead).1 pos
    (headSize + (r.readBody head (pos + headSize) bs answersHead).2)) := rfl
  rcases r.checkContent_eq (r.locate (r.readBody head (pos + headSize) bs answersHead).1 pos
    (headSize + (r.readBody head (pos + headSize) bs answersHead).2))
    with hcheck | ⟨reason, hcheck⟩ <;>
    rw [he, hcheck, hbody, hfields] <;> exact ⟨rfl, rfl, rfl⟩

theorem tellsDamage_checkContent {e : Exchange} {rest : Bytes} {headCut : Prop}
    (h : e.TellsDamage r.limits.completeness r.stream.bytes rest headCut) :
    (r.checkContent e).TellsDamage r.limits.completeness r.stream.bytes rest headCut := by
  rcases r.checkContent_eq e with hcheck | ⟨reason, hcheck⟩ <;> rw [hcheck]
  · exact h
  · exact h.note reason

theorem tellsDamage_locate {e : Exchange} {c : Completeness} {stream rest : Bytes} {headCut : Prop}
    (h : e.TellsDamage c stream rest headCut) (start size : Nat) :
    (r.locate e start size).TellsDamage c stream rest headCut :=
  ⟨h.unusable, h.complete, h.corrupt, h.recovered, h.chunksComplete⟩

/-- The end of the stream cuts the head at a place of it. -/
def HasCutHead (r : Reading) (place : Nat) : Prop :=
  ∃ startLine lineSize fields, r.headAt? place = some ⟨startLine, lineSize, .truncated fields⟩

theorem not_hasCutHead {place : Nat} (h : r.HasWholeHead place) : ¬r.HasCutHead place := by
  rintro ⟨_, _, _, hcut⟩
  obtain ⟨_, _, _, _, _, hwhole⟩ := h
  rw [hcut] at hwhole
  cases hwhole

theorem Cuts.cut_or_whole {pos : Nat} {bs : Bytes} {methods : List String} {es : List Exchange}
    (h : r.Cuts pos bs methods es) (hbs : bs = r.stream.bytes.drop pos) {e : Exchange}
    (he : e ∈ es) :
    (r.HasCutHead e.headOffset ∧ ∃ place available startLine fields,
      e = r.cutMessage place available startLine fields) ∨ r.HasWholeHead e.headOffset := by
  induction h with
  | done => exact absurd he List.not_mem_nil
  | skip _ _ _ ih => exact ih (by rw [hbs, List.drop_drop]) he
  | cut hhead =>
    obtain rfl := List.mem_singleton.mp he
    rw [hbs, ← headAt?] at hhead
    rw [(r.begins_cutMessage _ _ _ _).headOffset]
    exact .inl ⟨⟨_, _, _, hhead⟩, _, _, _, _, rfl⟩
  | whole hhead hmessage _ ih =>
    rcases List.mem_cons.mp he with rfl | he
    · rw [hbs, ← headAt?] at hhead
      rw [(r.begins_of_wholeMessage hmessage).headOffset]
      exact .inr ⟨_, _, _, _, _, hhead⟩
    · exact ih (by rw [hbs, List.drop_drop]) he

theorem tellsDamage_cutMessage (r : Reading) (pos available : Nat) (startLine : StartLine)
    (fields : Fields) (rest : Bytes) {headCut : Prop} (hcut : headCut) :
    (r.cutMessage pos available startLine fields).TellsDamage r.limits.completeness
      r.stream.bytes rest headCut := by
  refine tellsDamage_checkContent (tellsDamage_locate ?_ _ _)
  exact .of_unusable rfl (.inl hcut) (by simp [Exchange.note, begin, Exchange.start]) rfl rfl

theorem tellsDamage_wholeMessage {pos headSize : Nat} {startLine : StartLine} {fields : Fields}
    {bs : Bytes} {answersHead : Bool} (hbs : r.stream.bytes.drop (pos + headSize) = bs)
    (hframed : (r.wholeMessage pos headSize startLine fields bs answersHead).1.framing answersHead ≠
      .none)
    (hfull : ∀ n ∈ (r.wholeMessage pos headSize startLine fields bs answersHead).1.contentLength,
      r.limits.completeness.fallsShort n n = false) :
    (r.wholeMessage pos headSize startLine fields bs answersHead).1.TellsDamage
      r.limits.completeness r.stream.bytes bs False := by
  obtain ⟨-, hlength, hframing⟩ := r.says_wholeMessage pos headSize startLine fields bs answersHead
  rw [hframing] at hframed
  rw [hlength] at hfull
  have hbody :=
    tellsDamage_readBody (r.unread_headOnly pos headSize startLine fields) hbs hframed hfull
  exact tellsDamage_checkContent (tellsDamage_locate hbody _ _)

/-- How the end of the body of the message at place `n` was known when it was read. -/
def framingAt (r : Reading) (methods : List String) (n : Nat) (e : Exchange) : Framing :=
  e.framing (answersHead e.startLine
    (methods.drop (((r.messages methods).take n).countP (·.isFinal))))

end Reading

/-- Of a message with a body, or with a head that is cut, the content fails in the way that was
noted when the message was read. -/
theorem tellsDamage_messages (r : Reading) (methods : List String) {n : Nat} {e : Exchange}
    (he : (r.messages methods)[n]? = some e)
    (hframed : r.HasCutHead e.headOffset ∨ r.framingAt methods n e ≠ .none)
    (hfull : ∀ size ∈ e.contentLength, r.limits.completeness.fallsShort size size = false) :
    e.TellsDamage r.limits.completeness r.stream.bytes
      (r.stream.bytes.drop (e.headOffset + e.headLength)) (r.HasCutHead e.headOffset) := by
  have hcuts := r.cuts_messages methods
  rcases hcuts.cut_or_whole rfl (List.mem_of_getElem? he) with ⟨hcut, _, _, _, _, heq⟩ | hwhole
  · rw [heq] at hcut ⊢
    exact r.tellsDamage_cutMessage _ _ _ _ _ hcut
  · have hcut := Reading.not_hasCutHead hwhole
    have hframed := hframed.resolve_left hcut
    obtain ⟨lineSize, fields, size, rest, hhead, heq⟩ := hcuts.readWith rfl he hwhole
    unfold Reading.framingAt at hframed
    generalize Reading.answersHead e.startLine _ = answersHead at hframed heq
    have hrest : r.stream.bytes.drop (e.headOffset + (lineSize + size)) = rest := by
      rw [readHead?_rest hhead, List.drop_drop]
    obtain ⟨hheadLength, -, -⟩ :=
      r.says_wholeMessage e.headOffset (lineSize + size) e.startLine fields rest answersHead
    have hlength : e.headLength = lineSize + size :=
      (congrArg Exchange.headLength heq).trans hheadLength
    rw [congrArg Exchange.framing heq] at hframed
    rw [congrArg Exchange.contentLength heq] at hfull
    have hdamage := Reading.tellsDamage_wholeMessage hrest hframed hfull
    rw [hlength, hrest, eq_false hcut, heq]
    exact hdamage.relist e.index e.paired

/-- The framing of the first body breaks behind its only chunk, and the second one is cut. -/
theorem tellsDamage_messages_of_broken_chunk :
    let text := "HTTP/1.1 200 OK\r\nTransfer-Encoding: chunked\r\n\r\n3\r\nabc" ++
      "HTTP/1.1 200 OK\r\nContent-Length: 100\r\n\r\nde"
    let r : Reading :=
      ⟨⟨.standard, 200⟩, 0, .downlink, .ofPieces [⟨0, utf8Bytes text⟩], fun _ => .zero⟩
    ∃ broken short, r.messages [] = [broken, short] ∧
      broken.TellsDamage .standard r.stream.bytes
        (r.stream.bytes.drop (broken.headOffset + broken.headLength))
        (r.HasCutHead broken.headOffset) ∧
      short.TellsDamage .standard r.stream.bytes
        (r.stream.bytes.drop (short.headOffset + short.headLength))
        (r.HasCutHead short.headOffset) ∧
      (broken.content .standard r.stream.bytes, short.content .standard r.stream.bytes) =
        (.error (.chunkFramingCorrupt [97, 98, 99]), .error .notExtractable) := by
  intro text r
  have hmessages : (r.messages []).map (fun e => (e.contentLength, e.framing false,
      e.content .standard r.stream.bytes)) =
        [(none, .chunked, .error (.chunkFramingCorrupt [97, 98, 99])),
          (some 100, .length 100, .error .notExtractable)] := by
    decide +kernel
  obtain ⟨broken, rest, hrun, hbroken, hrest⟩ := List.map_eq_cons_iff.mp hmessages
  obtain ⟨short, last, rfl, hshort, hlast⟩ := List.map_eq_cons_iff.mp hrest
  obtain rfl := List.map_eq_nil_iff.mp hlast
  simp only [Prod.mk.injEq] at hbroken hshort
  have hframing : ∀ n e, r.framingAt [] n e = e.framing false := by
    intro n e
    unfold Reading.framingAt
    rw [List.drop_nil]
    cases e.startLine <;> rfl
  refine ⟨broken, short, hrun, ?_, ?_, ?_⟩
  · refine tellsDamage_messages r [] (show (r.messages [])[0]? = some broken by rw [hrun]; rfl)
      (.inr ?_) ?_
    · rw [hframing, hbroken.2.1]
      exact nofun
    · rw [hbroken.1]
      exact nofun
  · refine tellsDamage_messages r [] (show (r.messages [])[1]? = some short by rw [hrun]; rfl)
      (.inr ?_) ?_
    · rw [hframing, hshort.2.1]
      exact nofun
    · rintro size hsize
      rw [hshort.1] at hsize
      obtain rfl := Option.some.inj hsize
      decide +kernel
  · rw [hbroken.2.2, hshort.2.2]

end HttpCapture
