import HttpCapture.Proofs.BodyDamage
import HttpCapture.Proofs.PairingOrder

/-! Messages that have no body by rule, whatever their fields say of one. Reading passes over their
fields, but the content is taken by them: it fails where they announce a body, and is empty else. -/

namespace HttpCapture

namespace Exchange

variable {c : Completeness} {stream : Bytes} {e : Exchange}

/-- What becomes of a body that is missing: it lacks its chunks, its length or its compression, if
the fields tell of any. -/
theorem content_of_body_nil (hextractable : e.extractable = true) (hbody : e.body = []) :
    e.content c stream =
      if e.chunked then .error (.chunkFramingCorrupt [])
      else if (e.contentLength.any (c.fallsShort 0 ·)) then
        .error (.payloadTruncated (e.contentLength.getD 0) 0)
      else if e.isGzip then .error (.decompressionFailure Gzip.Error.truncated.message)
      else .ok [] := by
  have hraw : e.rawBody stream = [] := by rw [rawBody, hbody]; rfl
  have hchunks : decodeChunks [] = .error (.truncated ⟨[], 0⟩) := by
    rw [decodeChunks, scanChunks]
    rfl
  have hgzip : Gzip.decompress [] = .error .truncated := rfl
  rw [content, hextractable, hraw, unframed]
  cases e.chunked with
  | true => rw [if_pos rfl, hchunks]; rfl
  | false =>
    cases e.contentLength with
    | none => cases e.isGzip <;> simp [hgzip, Except.mapError]
    | some declared =>
      cases hshort : c.fallsShort 0 declared with
      | true => simp [hshort]
      | false => cases e.isGzip <;> simp [hshort, hgzip, Except.mapError]

theorem content_eq_nil_iff (hextractable : e.extractable = true) (hbody : e.body = []) :
    e.content c stream = .ok [] ↔ e.chunked = false ∧ e.isGzip = false ∧
      ∀ size ∈ e.contentLength, c.fallsShort 0 size = false := by
  rw [content_of_body_nil hextractable hbody]
  cases e.chunked with
  | true => simp
  | false =>
    cases e.contentLength with
    | none => cases e.isGzip <;> simp
    | some declared => cases e.isGzip <;> cases hshort : c.fallsShort 0 declared <;> simp [hshort]

theorem isGzip_of_body_nil (hextractable : e.extractable = true) (hbody : e.body = [])
    {reason : String} (h : e.content c stream = .error (.decompressionFailure reason)) :
    e.isGzip = true := by
  rw [content_of_body_nil hextractable hbody] at h
  split at h
  · cases h
  · split at h
    · cases h
    · split at h
      · next hgzip => exact hgzip
      · cases h

end Exchange

namespace Reading

variable {r : Reading} {methods : List String} {n : Nat} {e : Exchange}

/-- The message at place `n` has no body by rule: it is interim or of status 204 or 304, it is read
as the answer to a HEAD request, or it is a request that tells of no body. -/
def LacksBody (r : Reading) (methods : List String) (n : Nat) (e : Exchange) : Prop :=
  match e.startLine with
  | .request .. => e.contentLength = none ∧ e.chunked = false
  | .response _ status _ => status < 200 ∨ status = 204 ∨ status = 304 ∨
    ∃ method ∈ methods[((r.messages methods).take n).countP (·.isFinal)]?,
      sameLetters method "HEAD" = true
  | .encrypted => False

theorem framingAt_of_lacksBody (h : r.LacksBody methods n e) : r.framingAt methods n e = .none := by
  unfold LacksBody at h
  unfold framingAt Exchange.framing Exchange.isBodiless answersHead Exchange.status?
  cases hline : e.startLine with
  | request =>
    rw [hline] at h
    simp [h.1, h.2, Exchange.isResponse, hline]
  | response _ status _ =>
    rw [hline] at h
    have hbodiless : (status < 200 || status == 204 || status == 304 ||
        (methods.drop (((r.messages methods).take n).countP (·.isFinal))).head?.any
          (sameLetters · "HEAD")) = true := by
      simpa [or_assoc, List.head?_drop, Option.any_eq_true] using h
    simp only [Option.any_some, hbodiless, if_true]
  | encrypted =>
    rw [hline] at h
    exact h.elim

theorem checkContent_of_body_nil (hextractable : e.extractable = true) (hbody : e.body = [])
    (hgzip : e.isGzip = false) : r.checkContent e = e := by
  unfold checkContent
  split
  · split
    · next hcontent => simp [Exchange.isGzip_of_body_nil hextractable hbody hcontent] at hgzip
    · rfl
  · rfl

/-- Nothing is found wrong with a message without a body when it is read,
unless it is compressed. -/
theorem read_of_bodiless {place headSize : Nat} {startLine : StartLine} {fields : Fields}
    {answersHead : Bool}
    (hframing : (r.headOnly place headSize startLine fields).readFields.framing answersHead = .none)
    (bs : Bytes) :
    let e := (r.wholeMessage place headSize startLine fields bs answersHead).1
    e.extractable = true ∧ e.body = [] ∧ (e.isGzip = false → e.diagnostics = []) := by
  intro e
  let head := (r.headOnly place headSize startLine fields).readFields
  have hunread : head.Unread := (r.unread_headOnly _ _ _ _).readFields
  have he : e = r.checkContent (r.locate head place headSize) :=
    congrArg Prod.fst (wholeMessage_of_bodiless rfl hframing bs)
  have hsame : e.extractable = head.extractable ∧ e.body = head.body ∧ e.isGzip = head.isGzip := by
    rcases r.checkContent_eq (r.locate head place headSize) with hcheck | ⟨reason, hcheck⟩ <;>
      rw [he, hcheck] <;> exact ⟨rfl, rfl, rfl⟩
  obtain ⟨hextractable, hbody, hkind⟩ := hsame
  refine ⟨hextractable.trans hunread.extractable, hbody.trans hunread.body, fun hgzip => ?_⟩
  have hcheck : r.checkContent (r.locate head place headSize) = r.locate head place headSize :=
    checkContent_of_body_nil hunread.extractable hunread.body (hkind.symm.trans hgzip)
  rw [he, hcheck]
  exact hunread.diagnostics

theorem read_of_lacksBody (he : (r.messages methods)[n]? = some e)
    (hwhole : r.HasWholeHead e.headOffset) (hbodiless : r.LacksBody methods n e) :
    e.extractable = true ∧ e.body = [] ∧ (e.isGzip = false → e.diagnostics = []) := by
  obtain ⟨lineSize, fields, size, rest, -, heq⟩ := (r.cuts_messages methods).readWith rfl he hwhole
  have hframing := framingAt_of_lacksBody hbodiless
  unfold framingAt at hframing
  generalize answersHead e.startLine _ = answersHead at hframing heq
  obtain ⟨-, -, hsays⟩ :=
    r.says_wholeMessage e.headOffset (lineSize + size) e.startLine fields rest answersHead
  rw [congrArg Exchange.framing heq] at hframing
  have hread := read_of_bodiless ((congrFun hsays answersHead).symm.trans hframing) rest
  rw [heq]
  exact hread

end Reading

/-- A message without a body is found sound just if its fields tell neither of chunks nor of
compression, nor of a length that would be missed. -/
theorem sound_iff_of_lacksBody (r : Reading) (methods : List String) {n : Nat} {e : Exchange}
    (he : (r.messages methods)[n]? = some e) (hwhole : r.HasWholeHead e.headOffset)
    (hbodiless : r.LacksBody methods n e) (c : Completeness) :
    e.diagnostics = [] ∧ e.content c r.stream.bytes = .ok [] ↔
      e.chunked = false ∧ e.isGzip = false ∧
        ∀ size ∈ e.contentLength, c.fallsShort 0 size = false := by
  obtain ⟨hextractable, hbody, hdiagnostics⟩ := Reading.read_of_lacksBody he hwhole hbodiless
  rw [Exchange.content_eq_nil_iff hextractable hbody, and_iff_right_iff_imp]
  exact fun h => hdiagnostics h.2.1

/-- The answer to a HEAD request and the unchanged object of a GET request,
which tells its length. -/
theorem sound_iff_of_answers :
    let text := "HTTP/1.1 200 OK\r\nContent-Length: 0\r\n\r\n" ++
      "HTTP/1.1 304 Not Modified\r\nContent-Length: 5\r\n\r\n"
    let r : Reading :=
      ⟨⟨.standard, 200⟩, 0, .downlink, .ofPieces [⟨0, utf8Bytes text⟩], fun _ => .zero⟩
    ∃ empty unchanged, r.messages ["HEAD", "GET"] = [empty, unchanged] ∧
      r.HasWholeHead empty.headOffset ∧ r.LacksBody ["HEAD", "GET"] 0 empty ∧
      r.HasWholeHead unchanged.headOffset ∧ r.LacksBody ["HEAD", "GET"] 1 unchanged ∧
      (empty.diagnostics = [] ∧ empty.content .standard r.stream.bytes = .ok []) ∧
      ¬(unchanged.diagnostics = [] ∧ unchanged.content .standard r.stream.bytes = .ok []) := by
  intro text r
  have hmessages : (r.messages ["HEAD", "GET"]).map (fun e =>
      (e.headOffset, e.startLine, e.chunked, e.isGzip, e.contentLength)) =
        [(0, .response "HTTP/1.1" 200 "OK", false, false, some 0),
          (38, .response "HTTP/1.1" 304 "Not Modified", false, false, some 5)] := by
    decide +kernel
  obtain ⟨empty, rest, hrun, hempty, hrest⟩ := List.map_eq_cons_iff.mp hmessages
  obtain ⟨unchanged, last, rfl, hunchanged, hlast⟩ := List.map_eq_cons_iff.mp hrest
  obtain rfl := List.map_eq_nil_iff.mp hlast
  simp only [Prod.mk.injEq] at hempty hunchanged
  obtain ⟨hplace, hline, hchunked, hgzip, hlength⟩ := hempty
  obtain ⟨hplace', hline', hchunked', hgzip', hlength'⟩ := hunchanged
  have hhead : r.HasWholeHead empty.headOffset := by
    rw [hplace]
    exact ⟨.response "HTTP/1.1" 200 "OK", 17, [⟨"content-length", utf8Bytes "0"⟩], 21,
      utf8Bytes "HTTP/1.1 304 Not Modified\r\nContent-Length: 5\r\n\r\n", by decide +kernel⟩
  have hhead' : r.HasWholeHead unchanged.headOffset := by
    rw [hplace']
    exact ⟨.response "HTTP/1.1" 304 "Not Modified", 27, [⟨"content-length", utf8Bytes "5"⟩], 21, [],
      by decide +kernel⟩
  have hlacks : r.LacksBody ["HEAD", "GET"] 0 empty := by
    rw [Reading.LacksBody, hline]
    exact .inr (.inr (.inr ⟨"HEAD", rfl, by decide⟩))
  have hlacks' : r.LacksBody ["HEAD", "GET"] 1 unchanged := by
    rw [Reading.LacksBody, hline']
    exact .inr (.inr (.inl rfl))
  refine ⟨empty, unchanged, hrun, hhead, hlacks, hhead', hlacks', ?_, fun hsound => ?_⟩
  · refine (sound_iff_of_lacksBody r ["HEAD", "GET"] (by rw [hrun]; rfl) hhead hlacks .standard).mpr
      ⟨hchunked, hgzip, ?_⟩
    rw [hlength]
    rintro size hsize
    obtain rfl := Option.some.inj hsize
    decide +kernel
  · have hfields := (sound_iff_of_lacksBody r ["HEAD", "GET"] (by rw [hrun]; rfl) hhead' hlacks'
      .standard).mp hsound
    have hlong := hfields.2.2 5 hlength'
    revert hlong
    decide +kernel

/-- Three messages without a body: the answer to a HEAD request tells of compression, an unchanged
object of its length, and a response of status 204 of chunks. -/
theorem bodiless_damage :
    let ps : List SessionPacket :=
      [.sampleAt 1 .uplink 100 "HEAD /a HTTP/1.1\r\n\r\n",
        .sampleAt 2 .downlink 500 "HTTP/1.1 200 OK\r\nContent-Encoding: gzip\r\n\r\n",
        .sampleAt 3 .uplink 120 "GET /b HTTP/1.1\r\n\r\n",
        .sampleAt 4 .downlink 543 "HTTP/1.1 304 Not Modified\r\nContent-Length: 5\r\n\r\n",
        .sampleAt 5 .uplink 139 "GET /c HTTP/1.1\r\n\r\n",
        .sampleAt 6 .downlink 591 "HTTP/1.1 204 No Content\r\nTransfer-Encoding: chunked\r\n\r\n"]
    let t := (Session.ofPackets .sample .tcp ps).reassemble ⟨.standard, 80⟩ 0
    (t.exchanges.filter (·.isResponse)).map (fun e => (e.status?, e.diagnostics, t.content e)) =
      [(some 200, [.decompressionFailure "unexpected end of file"],
          .error (.decompressionFailure "unexpected end of file")),
        (some 304, [], .error (.payloadTruncated 5 0)),
        (some 204, [], .error (.chunkFramingCorrupt []))] := by
  intro ps t
  let found := t.plainExchanges ⟨.standard, 80⟩ 0
  have hlist : t.exchanges = listExchanges ([0, 3, 1, 4, 2, 5].filterMap (found[·]?)) :=
    Session.exchanges_of_perm _ (by decide) (by decide) (by decide +kernel) (by decide +kernel)
  rw [hlist]
  decide +kernel

end HttpCapture
