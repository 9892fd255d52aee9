import HttpCapture.Proofs.MessagePlaces

/-! What is noted about compressed contents. Messages are found by their heads and framing alone,
and the content of each is tried once it is found, whatever it is decompressed with. A failure is
noted with its reason just when the content fails so. Only a message whose first content-encoding
field has no text is not tried, though a later field may tell of compression. -/

namespace HttpCapture

/-- A way to decompress bytes, or the reason why it fails. -/
abbrev Decompressor := Bytes → Except String Bytes

def Gzip.decompressor : Decompressor := fun bs => (decompress bs).mapError (·.message)

namespace Exchange

variable {e : Exchange} {unzip : Decompressor} {c : Completeness} {stream : Bytes}

/-- The reasons that are noted for a failed decompression. -/
def decompressionFailures (e : Exchange) : List String :=
  e.diagnostics.filterMap fun
    | .decompressionFailure reason => some reason
    | _ => none

theorem decompressionFailures_note (e : Exchange) (reason : String) :
    (e.note (.decompressionFailure reason)).decompressionFailures =
      e.decompressionFailures ++ [reason] := by
  simp [decompressionFailures, note]

/-- The content, with any way to decompress it. -/
def contentBy (unzip : Decompressor) (c : Completeness) (stream : Bytes) (e : Exchange) :
    Except ContentError Bytes :=
  if !e.extractable then .error .notExtractable
  else
    match e.unframed c (e.rawBody stream) with
    | .error err => .error err
    | .ok body => if e.isGzip then (unzip body).mapError .decompressionFailure else .ok body

theorem content_eq_contentBy (e : Exchange) (c : Completeness) (stream : Bytes) :
    e.content c stream = e.contentBy Gzip.decompressor c stream := by
  unfold content contentBy
  split
  · rfl
  · cases e.unframed c (e.rawBody stream) with
    | error => rfl
    | ok body =>
      dsimp only [Gzip.decompressor]
      cases Gzip.decompress body <;> rfl

theorem extractable_of_contentBy {reason : String}
    (h : e.contentBy unzip c stream = .error (.decompressionFailure reason)) :
    e.extractable = true := by
  unfold contentBy at h
  split at h
  · cases h
  · next hextractable => simpa using hextractable

end Exchange

namespace Reading

/-- Report a compressed content that cannot be restored, with any way to decompress it. -/
def checkContentBy (unzip : Decompressor) (r : Reading) (e : Exchange) : Exchange :=
  if e.extractable ∧ (e.header? "content-encoding").isSome then
    match e.contentBy unzip r.limits.completeness r.stream.bytes with
    | .error (.decompressionFailure reason) => e.note (.decompressionFailure reason)
    | _ => e
  else e

variable {r : Reading} {unzip : Decompressor} {e : Exchange}

theorem checkContent_eq_checkContentBy (r : Reading) (e : Exchange) :
    r.checkContent e = r.checkContentBy Gzip.decompressor e := by
  rw [checkContent, Exchange.content_eq_contentBy]
  rfl

theorem checkContentBy_eq (unzip : Decompressor) (r : Reading) (e : Exchange) :
    r.checkContentBy unzip e = e ∨
      ∃ reason, r.checkContentBy unzip e = e.note (.decompressionFailure reason) := by
  unfold checkContentBy
  split
  · split
    · exact .inr ⟨_, rfl⟩
    · exact .inl rfl
  · exact .inl rfl

theorem content_checkContentBy (unzip : Decompressor) (r : Reading) (e : Exchange)
    (c : Completeness) (stream : Bytes) :
    (r.checkContentBy unzip e).contentBy unzip c stream = e.contentBy unzip c stream ∧
      (r.checkContentBy unzip e).header? "content-encoding" = e.header? "content-encoding" := by
  rcases checkContentBy_eq unzip r e with heq | ⟨reason, heq⟩ <;> rw [heq] <;> exact ⟨rfl, rfl⟩

theorem decompressionFailures_checkContentBy (h : e.decompressionFailures = []) (reason : String) :
    (r.checkContentBy unzip e).decompressionFailures = [reason] ↔
      e.contentBy unzip r.limits.completeness r.stream.bytes =
        .error (.decompressionFailure reason) ∧ (e.header? "content-encoding").isSome = true := by
  unfold checkContentBy
  by_cases htried : e.extractable = true ∧ (e.header? "content-encoding").isSome = true
  · rw [if_pos htried]
    split
    · next found hfound =>
      rw [Exchange.decompressionFailures_note, h, hfound]
      simp [htried.2]
    · next hfine =>
      rw [h]
      exact iff_of_false (by simp) fun hfails => hfine _ hfails.1
  · -- What fails to decompress is extractable, so it is the field that kept it from being tried.
    rw [if_neg htried, h]
    exact iff_of_false (by simp) fun hfails =>
      htried ⟨Exchange.extractable_of_contentBy hfails.1, hfails.2⟩

/-- The messages of the stream, with the content of each checked by any way to decompress it. -/
def messagesBy (unzip : Decompressor) (r : Reading) (methods : List String) : List Exchange :=
  r.messagesWith (r.checkContentBy unzip) 0 r.stream.bytes methods

theorem messages_eq_messagesBy (r : Reading) (methods : List String) :
    r.messages methods = r.messagesBy Gzip.decompressor methods := by
  have hcheck : r.checkContent = r.checkContentBy Gzip.decompressor :=
    funext r.checkContent_eq_checkContentBy
  rw [messages, messagesBy, hcheck]

theorem decompressionFailures_foundWhole (r : Reading) (pos headSize : Nat) (startLine : StartLine)
    (fields : Fields) (bs : Bytes) (answersHead : Bool) :
    (r.foundWhole pos headSize startLine fields bs answersHead).1.decompressionFailures = [] := by
  refine List.filterMap_eq_nil_iff.mpr fun d hd => ?_
  rcases mem_diagnostics_readBody hd with hd | ⟨_, _, rfl⟩ | ⟨_, rfl⟩
  · exact absurd hd List.not_mem_nil
  · rfl
  · rfl

end Reading

/-- One failure to decompress is noted, with its reason, just when the content of the message fails
so and the first content-encoding field has a text, whatever contents are decompressed with. -/
theorem decompressionFailures_iff (r : Reading) (methods : List String) :
    (∀ e ∈ r.messages methods, ∀ reason, e.decompressionFailures = [reason] ↔
      e.content r.limits.completeness r.stream.bytes = .error (.decompressionFailure reason) ∧
        (e.header? "content-encoding").isSome = true) ∧
    ∀ unzip, ∀ e ∈ r.messagesBy unzip methods, ∀ reason, e.decompressionFailures = [reason] ↔
      e.contentBy unzip r.limits.completeness r.stream.bytes =
        .error (.decompressionFailure reason) ∧ (e.header? "content-encoding").isSome = true := by
  have hnoted : ∀ unzip, ∀ e ∈ r.messagesBy unzip methods, ∀ reason,
    e.decompressionFailures = [reason] ↔
      e.contentBy unzip r.limits.completeness r.stream.bytes =
        .error (.decompressionFailure reason) ∧ (e.header? "content-encoding").isSome = true := by
    intro unzip e he reason
    obtain ⟨found, hnone, rfl⟩ := Reading.forall_found (P := (·.decompressionFailures = []))
      (r.checkContentBy unzip) (fun _ _ _ _ => rfl) r.decompressionFailures_foundWhole 0
      r.stream.bytes methods e he
    obtain ⟨hcontent, hfield⟩ :=
      r.content_checkContentBy unzip found r.limits.completeness r.stream.bytes
    rw [hcontent, hfield]
    exact Reading.decompressionFailures_checkContentBy hnone reason
  refine ⟨fun e he reason => ?_, hnoted⟩
  rw [Exchange.content_eq_contentBy]
  rw [r.messages_eq_messagesBy] at he
  exact hnoted Gzip.decompressor e he reason

/-- A stream with one response, which has the given content-encoding fields and
two bytes of content. -/
def sampleCompressed (encodings : List Bytes) : Reading :=
  let field (value : Bytes) := utf8Bytes "Content-Encoding: " ++ value ++ utf8Bytes "\r\n"
  let bytes := utf8Bytes "HTTP/1.1 200 OK\r\n" ++ encodings.flatMap field ++
    utf8Bytes "Content-Length: 2\r\n\r\nhi"
  ⟨⟨.standard, 200⟩, 0, .downlink, .ofPieces [⟨0, bytes⟩], fun _ => .zero⟩

/-- The header of the compressed data is cut. -/
theorem decompressionFailures_iff_of_cut :
    let r := sampleCompressed [utf8Bytes "gzip"]
    ∃ e ∈ r.messages [], e.decompressionFailures = ["unexpected end of file"] ∧
      e.content r.limits.completeness r.stream.bytes =
        .error (.decompressionFailure "unexpected end of file") := by
  intro r
  have hmessages : (r.messages []).map (fun e => (e.content r.limits.completeness r.stream.bytes,
      e.header? "content-encoding")) =
        [(.error (.decompressionFailure "unexpected end of file"), some "gzip")] := by
    decide +kernel
  obtain ⟨e, he, hfields⟩ := List.mem_map.mp (hmessages ▸ List.mem_cons_self)
  obtain ⟨hcontent, hfield⟩ := Prod.mk.inj hfields
  refine ⟨e, he, ?_, hcontent⟩
  exact ((decompressionFailures_iff r []).1 e he _).mpr ⟨hcontent, by rw [hfield]; rfl⟩

/-- The first field has no text, so that the failure that the second one brings about is not
noted. -/
theorem decompressionFailures_of_unreadable_field :
    let r := sampleCompressed [[255], utf8Bytes "gzip"]
    ∃ e ∈ r.messages [], e.diagnostics = [] ∧
      e.content r.limits.completeness r.stream.bytes =
        .error (.decompressionFailure "unexpected end of file") := by
  intro r
  have hmessages : (r.messages []).map (fun e => (e.diagnostics,
      e.content r.limits.completeness r.stream.bytes)) =
        [([], .error (.decompressionFailure "unexpected end of file"))] := by
    decide +kernel
  obtain ⟨e, he, hfields⟩ := List.mem_map.mp (hmessages ▸ List.mem_cons_self)
  exact ⟨e, he, Prod.mk.inj hfields⟩

end HttpCapture
