import HttpCapture.Proofs.MessageRoundTrip
import HttpCapture.Session.Reassembly

/-! Where messages are cut out of a stream, and which methods they are read with. A message starts
where the one before it ends, or at a later packet. A whole message is read with the methods that
the final messages before it have left. -/

namespace HttpCapture

theorem startLine?_ne_encrypted {line : List Char} {startLine : StartLine}
    (h : startLine? line = some startLine) : startLine ≠ .encrypted := by
  rintro rfl
  unfold startLine? statusLine? requestLine? at h
  split at h
  · cases h
  · dsimp only at h
    split at h
    · split at h <;> simp at h
    · obtain ⟨version, _, h⟩ := Option.bind_eq_some_iff.mp h
      split at h <;> simp at h

theorem readHead?_eq_some {limit : Nat} {bs : Bytes} {head : Head}
    (h : readHead? limit bs = some head) :
    0 < head.lineSize ∧ head.startLine ≠ .encrypted := by
  obtain ⟨line, hline, h⟩ := Option.bind_eq_some_iff.mp h
  obtain ⟨startLine, hstart, rfl⟩ := Option.map_eq_some_iff.mp h
  obtain ⟨_, _, hstart⟩ := Option.bind_eq_some_iff.mp hstart
  exact ⟨firstLine?_size_pos (lineWithin?_eq_some hline).1, startLine?_ne_encrypted hstart⟩

namespace Reading

/-- The messages of `bs`, which stands at `pos` in the stream, while `methods` are to be
answered. -/
inductive Cuts (r : Reading) : Nat → Bytes → List String → List Exchange → Prop
  | done {pos methods} : Cuts r pos [] methods []
  /-- No message is found at `pos`. -/
  | skip {pos bs methods es} (hne : bs ≠ [])
      (hhead : ∀ head ∈ readHead? r.limits.maxHead bs, head.block = .oversized)
      (hrest : Cuts r (pos + r.gap pos bs) (bs.drop (r.gap pos bs)) methods es) :
      Cuts r pos bs methods es
  | cut {pos bs methods startLine lineSize fields}
      (hhead : readHead? r.limits.maxHead bs = some ⟨startLine, lineSize, .truncated fields⟩) :
      Cuts r pos bs methods [r.cutMessage pos bs.length startLine fields]
  | whole {pos bs methods startLine lineSize fields size rest e bodySize es}
      (hhead : readHead? r.limits.maxHead bs =
        some ⟨startLine, lineSize, .complete fields size rest⟩)
      (hmessage : r.wholeMessage pos (lineSize + size) startLine fields rest
        (answersHead startLine methods) = (e, bodySize))
      (hrest : Cuts r (pos + (lineSize + size + bodySize)) (bs.drop (lineSize + size + bodySize))
        (remaining startLine methods) es) :
      Cuts r pos bs methods (e :: es)

variable {r : Reading} {pos : Nat} {bs : Bytes} {methods : List String}

/-- Reading a body fills in its bytes and what is found wrong with it, and leaves all
else as the fields say. -/
theorem exists_readBody_eq (r : Reading) (e : Exchange) (start : Nat) (bs : Bytes)
    (answersHead : Bool) : ∃ complete extractable diagnostics,
      (r.readBody e start bs answersHead).1 = { e.readFields with
        body := e.readFields.body.insert start (r.readBody e start bs answersHead).2
        chunksComplete := complete
        extractable := extractable
        diagnostics := diagnostics } := by
  unfold readBody
  dsimp only
  cases e.readFields.framing answersHead with
  | none => exact ⟨_, _, _, rfl⟩
  | untilClose => exact ⟨_, _, _, rfl⟩
  | length declared =>
    unfold readLengthBody
    dsimp only
    split
    · split <;> exact ⟨_, _, _, rfl⟩
    · exact ⟨_, _, _, rfl⟩
  | chunked =>
    unfold readChunkedBody
    dsimp only
    split <;> exact ⟨_, _, _, rfl⟩

/-- Only damage to the body itself is noted while it is read. -/
theorem mem_diagnostics_readBody {r : Reading} {e : Exchange} {start : Nat} {bs : Bytes}
    {answersHead : Bool} {d : ExchangeDiagnostic}
    (hd : d ∈ (r.readBody e start bs answersHead).1.diagnostics) :
    d ∈ e.diagnostics ∨ (∃ declared available, d = .payloadTruncated declared available) ∨
      ∃ offset, d = .chunkFramingCorrupt offset := by
  obtain ⟨_, _, hfields⟩ := e.readFields_eq
  have hsame : e.readFields.diagnostics = e.diagnostics := by rw [hfields]
  rw [← hsame]
  unfold readBody at hd
  dsimp only at hd
  cases hframing : e.readFields.framing answersHead with
  | none =>
    rw [hframing] at hd
    exact .inl hd
  | untilClose =>
    rw [hframing] at hd
    exact .inl hd
  | length declared =>
    rw [hframing] at hd
    unfold readLengthBody at hd
    dsimp only at hd
    split at hd
    · have hnoted : d ∈ e.readFields.diagnostics ++
          [.payloadTruncated (some declared) (min declared bs.length)] := by
        split at hd <;> exact hd
      exact (List.mem_append.mp hnoted).imp_right fun hd => .inl ⟨_, _, List.mem_singleton.mp hd⟩
    · exact .inl hd
  | chunked =>
    rw [hframing] at hd
    unfold readChunkedBody at hd
    dsimp only at hd
    split at hd
    · exact .inl hd
    · exact (List.mem_append.mp hd).imp_right fun hd => .inr ⟨_, List.mem_singleton.mp hd⟩
    · exact (List.mem_append.mp hd).imp_right fun hd => .inr ⟨_, List.mem_singleton.mp hd⟩

/-- A message that has the given start line at the given place. -/
structure Begins (r : Reading) (place : Nat) (startLine : StartLine) (e : Exchange) : Prop where
  startLine : e.startLine = startLine
  direction : e.direction = r.direction
  headOffset : e.headOffset = place

section

variable {place : Nat} {startLine : StartLine} {e : Exchange}

theorem begins_begin (r : Reading) (place : Nat) (startLine : StartLine) (fields : Fields)
    (headLength : Nat) (extractable : Bool) :
    r.Begins place startLine { r.begin place startLine with
      fields := fields, headLength := headLength, extractable := extractable } :=
  ⟨rfl, rfl, rfl⟩

theorem Begins.note (h : r.Begins place startLine e) (d : ExchangeDiagnostic) :
    r.Begins place startLine (e.note d) :=
  ⟨h.startLine, h.direction, h.headOffset⟩

theorem Begins.readFields (h : r.Begins place startLine e) :
    r.Begins place startLine e.readFields := by
  obtain ⟨_, _, heq⟩ := e.readFields_eq
  rw [heq]
  exact ⟨h.startLine, h.direction, h.headOffset⟩

theorem Begins.readBody (h : r.Begins place startLine e) (start : Nat) (bs : Bytes)
    (answersHead : Bool) : r.Begins place startLine (r.readBody e start bs answersHead).1 := by
  obtain ⟨hline, hdirection, hplace⟩ := h.readFields
  obtain ⟨_, _, _, heq⟩ := r.exists_readBody_eq e start bs answersHead
  rw [heq]
  exact ⟨hline, hdirection, hplace⟩

theorem Begins.locate (h : r.Begins place startLine e) (start size : Nat) :
    r.Begins place startLine (r.locate e start size) :=
  ⟨h.startLine, h.direction, h.headOffset⟩

theorem checkContent_eq (r : Reading) (e : Exchange) :
    r.checkContent e = e ∨ ∃ reason, r.checkContent e = e.note (.decompressionFailure reason) := by
  unfold checkContent
  split
  · split
    · exact .inr ⟨_, rfl⟩
    · exact .inl rfl
  · exact .inl rfl

theorem Begins.checkContent (h : r.Begins place startLine e) :
    r.Begins place startLine (r.checkContent e) := by
  rcases r.checkContent_eq e with heq | ⟨reason, heq⟩ <;> rw [heq]
  · exact h
  · exact h.note _

theorem begins_wholeMessage (r : Reading) (place headSize : Nat) (startLine : StartLine)
    (fields : Fields) (bs : Bytes) (answersHead : Bool) :
    r.Begins place startLine (r.wholeMessage place headSize startLine fields bs answersHead).1 :=
  (((r.begins_begin place startLine fields headSize true).readBody _ _ _).locate _ _).checkContent

theorem begins_of_wholeMessage {headSize bodySize : Nat} {fields : Fields} {answersHead : Bool}
    (h : r.wholeMessage place headSize startLine fields bs answersHead = (e, bodySize)) :
    r.Begins place startLine e := by
  have hbegins := r.begins_wholeMessage place headSize startLine fields bs answersHead
  rwa [h] at hbegins

theorem begins_cutMessage (r : Reading) (place available : Nat) (startLine : StartLine)
    (fields : Fields) : r.Begins place startLine (r.cutMessage place available startLine fields) :=
  (((r.begins_begin place startLine fields available false).note _).locate _ _).checkContent

theorem Begins.of_head (h : r.Begins place startLine e) {lineSize : Nat} {block : HeaderBlock}
    (hhead : readHead? r.limits.maxHead bs = some ⟨startLine, lineSize, block⟩) :
    place ≤ e.headOffset ∧ e.direction = r.direction ∧ e.startLine ≠ .encrypted :=
  ⟨Nat.le_of_eq h.headOffset.symm, h.direction, h.startLine.trans_ne (readHead?_eq_some hhead).2⟩

end

theorem cuts_messagesFrom (r : Reading) (pos : Nat) (bs : Bytes) (methods : List String) :
    r.Cuts pos bs methods (r.messagesFrom pos bs methods) := by
  -- Reading goes on at a later packet or after a message, with fewer bytes either way.
  induction hlen : bs.length using Nat.strongRecOn generalizing pos bs methods with
  | ind n ih =>
    subst hlen
    by_cases hne : bs = []
    · subst hne
      rw [messagesFrom_eq, dif_pos rfl]
      exact .done
    have hgap := r.gap_pos pos hne
    have hlen := List.length_pos_iff.mpr hne
    have hskip : r.Cuts (pos + r.gap pos bs) (bs.drop (r.gap pos bs)) methods
        (r.messagesFrom (pos + r.gap pos bs) (bs.drop (r.gap pos bs)) methods) :=
      ih _ (by rw [List.length_drop]; omega) _ _ _ rfl
    cases hhead : readHead? r.limits.maxHead bs with
    | none =>
      rw [messagesFrom_eq, dif_neg hne, hhead]
      exact .skip hne (by simp [hhead]) hskip
    | some head =>
      obtain ⟨startLine, lineSize, block⟩ := head
      have hline : 0 < lineSize := (readHead?_eq_some hhead).1
      cases block with
      | oversized =>
        rw [messagesFrom_eq, dif_neg hne, hhead]
        exact .skip hne (by simp [hhead]) hskip
      | truncated fields =>
        rw [messagesFrom_eq, dif_neg hne, hhead]
        exact .cut hhead
      | complete fields size rest =>
        rw [messagesFrom_of_head hhead hline hne]
        exact .whole hhead rfl (ih _ (by rw [List.length_drop]; omega) _ _ _ rfl)

theorem cuts_messages (r : Reading) (methods : List String) :
    r.Cuts 0 r.stream.bytes methods (r.messages methods) :=
  r.cuts_messagesFrom 0 r.stream.bytes methods

/-- What is true of every message with a cut head and of every one with a whole head is true of
all. -/
theorem Cuts.forall_mem {P : Exchange → Prop} {es : List Exchange} (h : r.Cuts pos bs methods es)
    (hcut : ∀ pos available startLine fields, P (r.cutMessage pos available startLine fields))
    (hwhole : ∀ pos headSize startLine fields bs answersHead,
      P (r.wholeMessage pos headSize startLine fields bs answersHead).1) : ∀ e ∈ es, P e := by
  induction h with
  | done => exact fun e he => absurd he List.not_mem_nil
  | skip _ _ _ ih => exact ih
  | cut =>
    intro e he
    obtain rfl := List.mem_singleton.mp he
    exact hcut _ _ _ _
  | @whole pos _ methods startLine lineSize fields size rest _ _ _ _ hmessage _ ih =>
    intro e he
    rcases List.mem_cons.mp he with rfl | he
    · have hP := hwhole pos (lineSize + size) startLine fields rest (answersHead startLine methods)
      rwa [hmessage] at hP
    · exact ih e he

theorem Cuts.of_mem {es : List Exchange} (h : r.Cuts pos bs methods es) :
    ∀ e ∈ es, pos ≤ e.headOffset ∧ e.direction = r.direction ∧ e.startLine ≠ .encrypted := by
  induction h with
  | done => simp
  | skip _ _ _ ih =>
    intro e he
    have := ih e he
    exact ⟨by omega, this.2⟩
  | cut hhead =>
    intro e he
    obtain rfl := List.mem_singleton.mp he
    exact (r.begins_cutMessage _ _ _ _).of_head hhead
  | whole hhead hmessage _ ih =>
    intro e he
    rcases List.mem_cons.mp he with rfl | he
    · exact (r.begins_of_wholeMessage hmessage).of_head hhead
    · have := ih e he
      exact ⟨by omega, this.2⟩

theorem Cuts.ascending {es : List Exchange} (h : r.Cuts pos bs methods es) :
    es.Pairwise fun a b => a.headOffset < b.headOffset := by
  induction h with
  | done => exact .nil
  | skip _ _ _ ih => exact ih
  | cut => exact List.pairwise_singleton _ _
  | whole hhead hmessage hrest ih =>
    refine .cons (fun e he => ?_) ih
    have hplace := (r.begins_of_wholeMessage hmessage).headOffset
    have hline := (readHead?_eq_some hhead).1
    have := (hrest.of_mem e he).1
    dsimp only at hline
    omega

def headAt? (r : Reading) (place : Nat) : Option Head :=
  readHead? r.limits.maxHead (r.stream.bytes.drop place)

/-- Neither the end of the stream nor the limit cuts the head at a place of the stream. -/
def HasWholeHead (r : Reading) (place : Nat) : Prop :=
  ∃ startLine lineSize fields size rest,
    r.headAt? place = some ⟨startLine, lineSize, .complete fields size rest⟩

/-- A message is read as the answer to a HEAD request, or as that to another one. Its place in the
session and its partner are entered later. -/
def ReadWith (r : Reading) (e : Exchange) (answersHead : Bool) : Prop :=
  ∃ lineSize fields size rest,
    r.headAt? e.headOffset = some ⟨e.startLine, lineSize, .complete fields size rest⟩ ∧
      e = { (r.wholeMessage e.headOffset (lineSize + size) e.startLine fields rest
          answersHead).1 with
        index := e.index, paired := e.paired }

/-- Of a message without a body only the head is read. -/
theorem wholeMessage_of_bodiless {r : Reading} {place headSize : Nat} {startLine : StartLine}
    {fields : Fields} {answersHead : Bool} {e : Exchange}
    (he : { r.begin place startLine with fields := fields, headLength := headSize }.readFields = e)
    (hframing : e.framing answersHead = .none) (bs : Bytes) :
    r.wholeMessage place headSize startLine fields bs answersHead =
      (r.checkContent (r.locate e place headSize), 0) := by
  unfold wholeMessage foundWhole readBody
  dsimp only
  rw [he, hframing]
  rfl

/-- The answer to a HEAD request has no body, and none is missed. -/
theorem body_of_wholeMessage (r : Reading) (place headSize : Nat) (version : String) (status : Nat)
    (reason : String) (fields : Fields) (bs : Bytes) :
    let e := (r.wholeMessage place headSize (.response version status reason) fields bs true).1
    e.body = [] ∧ ∀ d ∈ e.diagnostics, ∃ reason, d = .decompressionFailure reason := by
  intro e
  obtain ⟨range, instanceLength, hfields⟩ := Exchange.readFields_eq
    { r.begin place (.response version status reason) with
      fields := fields, headLength := headSize }
  have he : e = r.checkContent (r.locate _ place headSize) :=
    congrArg Prod.fst (wholeMessage_of_bodiless hfields
      (by simp [Exchange.framing, Exchange.isBodiless, Exchange.status?, begin, Exchange.start]) bs)
  rcases checkContent_eq r _ with hcheck | ⟨reason, hcheck⟩ <;> rw [he, hcheck]
  · exact ⟨rfl, fun d hd => absurd hd List.not_mem_nil⟩
  · exact ⟨rfl, fun d hd => ⟨reason, List.mem_singleton.mp hd⟩⟩

theorem ReadWith.relist {e : Exchange} {answersHead : Bool} (h : r.ReadWith e answersHead) (i : Nat)
    (paired : Option Nat) : r.ReadWith { e with index := i, paired := paired } answersHead := by
  obtain ⟨lineSize, fields, size, rest, hhead, he⟩ := h
  exact ⟨lineSize, fields, size, rest, hhead,
    congrArg (fun e : Exchange => { e with index := i, paired := paired }) he⟩

theorem ReadWith.body {e : Exchange} (h : r.ReadWith e true) (hresponse : e.isResponse = true) :
    e.body = [] ∧ ∀ d ∈ e.diagnostics, ∃ reason, d = .decompressionFailure reason := by
  obtain ⟨lineSize, fields, size, rest, hhead, he⟩ := h
  have hne : e.startLine ≠ .encrypted := (readHead?_eq_some hhead).2
  unfold Exchange.isResponse at hresponse
  cases hline : e.startLine with
  | request => simp [hline] at hresponse
  | encrypted => exact absurd hline hne
  | response version status reason =>
    rw [hline] at he
    have hbody :=
      r.body_of_wholeMessage e.headOffset (lineSize + size) version status reason fields rest
    rw [he]
    exact hbody

theorem remaining_eq_drop {e : Exchange} (h : e.startLine ≠ .encrypted) (methods : List String) :
    remaining e.startLine methods = methods.drop (if e.isFinal then 1 else 0) := by
  unfold remaining Exchange.isFinal Exchange.isResponse Exchange.status?
  cases hline : e.startLine with
  | request => simp
  | response _ status _ =>
    by_cases hs : status < 200
    · simp [hs, Nat.not_le.mpr hs]
    · simp [hs, Nat.not_lt.mp hs]
  | encrypted => exact absurd hline h

/-- The methods a message is read with are those that the final messages before it have left. -/
theorem Cuts.readWith {es : List Exchange} (h : r.Cuts pos bs methods es)
    (hbs : bs = r.stream.bytes.drop pos) {n : Nat} {e : Exchange} (he : es[n]? = some e)
    (hwhole : r.HasWholeHead e.headOffset) :
    r.ReadWith e (answersHead e.startLine
      (methods.drop ((es.take n).countP (·.isFinal)))) := by
  induction h generalizing n with
  | done => simp at he
  | skip _ _ _ ih => exact ih (by rw [hbs, List.drop_drop]) he
  | @cut pos bs _ startLine _ fields hhead =>
    obtain rfl : r.cutMessage pos bs.length startLine fields = e :=
      (List.mem_singleton.mp (List.mem_of_getElem? he)).symm
    -- The head is cut here and whole there.
    obtain ⟨_, _, _, _, _, hcomplete⟩ := hwhole
    rw [(r.begins_cutMessage _ _ _ _).headOffset, headAt?, ← hbs, hhead] at hcomplete
    cases hcomplete
  | whole hhead hmessage _ ih =>
    have hbegins := r.begins_of_wholeMessage hmessage
    cases n with
    | zero =>
      obtain rfl : _ = e := by simpa using he
      rw [hbs, ← hbegins.headOffset, ← hbegins.startLine] at hhead
      refine ⟨_, _, _, _, hhead, ?_⟩
      rw [hbegins.headOffset, hbegins.startLine, List.take_zero, List.countP_nil, List.drop_zero,
        hmessage]
    | succ n =>
      have hne := (hbegins.of_head hhead).2.2
      have hread := ih (by rw [hbs, List.drop_drop]) he
      rw [← hbegins.startLine, remaining_eq_drop hne, List.drop_drop] at hread
      rwa [List.take_succ_cons, List.countP_cons, Nat.add_comm]

end Reading

end HttpCapture
