import HttpCapture.Proofs.ChunkRoundTrip
import HttpCapture.Proofs.FinishedMessages
import HttpCapture.Proofs.HeadRoundTrip
import Mathlib.Data.List.Forall2

/-! Messages written one after another are read back one by one. Each takes exactly its own bytes,
so the next one is looked for where it starts, whatever packets the stream was put together from. -/

namespace HttpCapture

/-- How the body of a written message is framed. -/
inductive BodyCoding
  | bodiless
  | sized
  | chunked (size : Nat)
  | untilClose
  deriving DecidableEq, Repr

structure Message where
  startLine : StartLine
  headers : List HeaderLine
  coding : BodyCoding
  body : Bytes
  /-- The method of the request that a final response answers. -/
  answers : Option String
  deriving DecidableEq, Repr

namespace Message

def fields (m : Message) : Fields := m.headers.map HeaderLine.field

def head (m : Message) : Bytes := m.startLine.bytes ++ headerBytes m.headers

def wireBody (m : Message) : Bytes :=
  match m.coding with
  | .bodiless => []
  | .sized => m.body
  | .chunked size => encodeChunks m.body size
  | .untilClose => m.body

def bytes (m : Message) : Bytes := m.head ++ m.wireBody

def isRequest (m : Message) : Bool := m.startLine matches .request ..

def isFinal (m : Message) : Bool :=
  match m.startLine with
  | .response _ status _ => 200 ≤ status
  | _ => false

def answersHead (m : Message) : Bool := m.answers.any (sameLetters · "HEAD")

/-- Interim responses, 204, 304 and replies to HEAD requests have no body. -/
def forbidsBody (m : Message) : Bool :=
  match m.startLine with
  | .response _ status _ => status < 200 || status == 204 || status == 304 || m.answersHead
  | _ => false

def listsChunked (m : Message) : Bool := m.fields.hasToken "transfer-encoding" "chunked"

/-- The framing fields say how the body is framed. -/
def Framed (m : Message) : Prop :=
  match m.coding with
  | .bodiless =>
    m.forbidsBody = true ∨
      m.isRequest = true ∧ m.fields.values "content-length" = [] ∧ m.listsChunked = false
  | .sized =>
    m.forbidsBody = false ∧ m.listsChunked = false ∧
      ∃ digits, m.fields.values "content-length" = [digits] ∧ Spells digits m.body.length
  | .chunked _ => m.forbidsBody = false ∧ m.listsChunked = true
  | .untilClose =>
    m.forbidsBody = false ∧ m.isRequest = false ∧
      m.fields.values "content-length" = [] ∧ m.listsChunked = false

structure WellFormed (maxHead : Nat) (m : Message) : Prop where
  startLine : m.startLine.Valid
  headers : ∀ h ∈ m.headers, h.Valid
  head : m.head.length ≤ maxHead
  /-- The body is not compressed. -/
  plain : m.fields.values "content-encoding" = []
  framed : m.Framed
  /-- A length is a 64-bit number. -/
  short : m.body.length < wordBound
  /-- Exactly the final responses answer a request. -/
  answers : m.answers.isSome = m.isFinal

/-- An exchange is what the message at the given place of the stream comes to. -/
structure ReadAs (c : Completeness) (stream : Bytes) (place : Nat) (m : Message) (e : Exchange) :
    Prop where
  startLine : e.startLine = m.startLine
  fields : e.fields = m.fields
  headOffset : e.headOffset = place
  headLength : e.headLength = m.head.length
  body : e.body = if m.wireBody = [] then [] else [(place + m.head.length, m.wireBody.length)]
  wireBytes : e.wireBytes = m.bytes.length
  diagnostics : e.diagnostics = []
  content : m.coding ≠ .bodiless → e.content c stream = .ok m.body

def placed (place : Nat) : List Message → List (Nat × Message)
  | [] => []
  | m :: ms => (place, m) :: placed (place + m.bytes.length) ms

end Message

/-- Reading the fields fills in the framing and the range and leaves all else as it is. -/
theorem Exchange.readFields_eq (e : Exchange) :
    ∃ range instanceLength, e.readFields =
      { e with
        contentLength := e.fields.number? "content-length"
        chunked := e.fields.hasToken "transfer-encoding" "chunked"
        range := range
        instanceLength := instanceLength } := by
  unfold readFields
  dsimp only
  split
  · exact ⟨_, _, rfl⟩
  · exact ⟨e.range, e.instanceLength, rfl⟩

theorem Exchange.rawBody_of_body {e : Exchange} {start size : Nat}
    (h : e.body = BodySegments.insert [] start size) (stream : Bytes) :
    e.rawBody stream = (stream.drop start).take size := by
  unfold rawBody
  rw [h]
  by_cases hsize : size = 0
  · simp [BodySegments.insert, hsize]
  · simp [BodySegments.insert, hsize, BodySegments.put]

theorem Fields.number?_of_values_nil {fields : Fields} {name : String}
    (h : fields.values name = []) : fields.number? name = none := by
  simp [Fields.number?, Fields.text?, h]

theorem Fields.hasToken_of_values_nil {fields : Fields} {name : String}
    (h : fields.values name = []) (token : String) : fields.hasToken name token = false := by
  simp [Fields.hasToken, Fields.texts, h]

namespace Reading

theorem checkContent_of_plain (r : Reading) {e : Exchange}
    (h : e.fields.values "content-encoding" = []) : r.checkContent e = e := by
  have hnone : e.header? "content-encoding" = none := by
    simp [Exchange.header?, Fields.text?, h]
  simp [checkContent, hnone]

theorem messagesFrom_of_head {r : Reading} {pos lineSize size : Nat} {bs rest : Bytes}
    {methods : List String} {startLine : StartLine} {fields : Fields}
    (hhead : readHead? r.limits.maxHead bs =
      some ⟨startLine, lineSize, .complete fields size rest⟩)
    (hpos : 0 < lineSize) (hne : bs ≠ []) :
    r.messagesFrom pos bs methods =
      let read := r.wholeMessage pos (lineSize + size) startLine fields rest
        (answersHead startLine methods)
      let total := lineSize + size + read.2
      read.1 :: r.messagesFrom (pos + total) (bs.drop total) (remaining startLine methods) := by
  rw [messagesFrom_eq, dif_neg hne, hhead]
  dsimp only
  rw [if_pos (by omega)]

end Reading

namespace Message

def framing (m : Message) : Framing :=
  match m.coding with
  | .bodiless => .none
  | .sized => .length m.body.length
  | .chunked _ => .chunked
  | .untilClose => .untilClose

theorem isBodiless_eq_forbidsBody {m : Message} {maxHead : Nat} (hm : m.WellFormed maxHead)
    {e : Exchange} (he : e.startLine = m.startLine) (others : List String) :
    e.isBodiless (Reading.answersHead m.startLine (m.answers.toList ++ others)) =
      m.forbidsBody := by
  have hanswers := hm.answers
  unfold Exchange.isBodiless Exchange.status? forbidsBody isFinal answersHead at *
  rw [he]
  cases hline : m.startLine with
  | request method uri version => rfl
  | encrypted => rfl
  | response version status reason =>
    by_cases hlt : status < 200
    · simp [hlt]
    · rw [hline] at hanswers
      obtain ⟨method, hmethod⟩ := Option.isSome_iff_exists.mp
        (hanswers.trans (by simpa using hlt))
      simp [hmethod, Reading.answersHead]

theorem framing_eq {m : Message} {maxHead : Nat} (hm : m.WellFormed maxHead) {e : Exchange}
    (hline : e.startLine = m.startLine) (hfields : e.fields = m.fields)
    (hlength : e.contentLength = e.fields.number? "content-length")
    (hchunked : e.chunked = e.fields.hasToken "transfer-encoding" "chunked")
    (others : List String) :
    e.framing (Reading.answersHead m.startLine (m.answers.toList ++ others)) = m.framing := by
  have hbodiless := isBodiless_eq_forbidsBody hm hline others
  have hframed := hm.framed
  rw [hfields] at hlength hchunked
  unfold Exchange.framing framing
  unfold Framed at hframed
  rw [hbodiless, hlength, hchunked]
  change (if m.forbidsBody = true then _ else if m.listsChunked = true then _ else _) = _
  cases hcoding : m.coding with
  | bodiless =>
    simp only [hcoding] at hframed
    rcases hframed with hforbids | ⟨hrequest, hnone, hchunk⟩
    · simp [hforbids]
    · have hresponse : e.isResponse = false := by
        unfold Exchange.isResponse isRequest at *
        rw [hline]
        split at hrequest <;> simp_all
      simp [Fields.number?_of_values_nil hnone, hchunk, hresponse]
  | sized =>
    simp only [hcoding] at hframed
    obtain ⟨hforbids, hchunk, digits, hdigits, hspells⟩ := hframed
    simp [hforbids, hchunk, Fields.number?_of_spells hdigits hspells hm.short]
  | chunked size =>
    simp only [hcoding] at hframed
    simp [hframed.1, hframed.2]
  | untilClose =>
    simp only [hcoding] at hframed
    obtain ⟨hforbids, hrequest, hnone, hchunk⟩ := hframed
    have hresponse : e.isResponse = true := by
      have hvalid := hm.startLine
      unfold Exchange.isResponse
      rw [hline]
      cases hl : m.startLine with
      | request => simp [isRequest, hl] at hrequest
      | response => rfl
      | encrypted => rw [hl] at hvalid; exact absurd hvalid id
    simp [hforbids, hchunk, Fields.number?_of_values_nil hnone, hresponse]

/-- The body of a message is read to its end and no further. -/
theorem readBody_eq {m : Message} (r : Reading) (hm : m.WellFormed r.limits.maxHead) {e : Exchange}
    (hline : e.startLine = m.startLine) (hfields : e.fields = m.fields) (hbody : e.body = [])
    (start : Nat) {rest : Bytes} (hclose : m.coding = .untilClose → rest = [])
    (others : List String) :
    ∃ range instanceLength complete,
      r.readBody e start (m.wireBody ++ rest)
          (Reading.answersHead m.startLine (m.answers.toList ++ others)) =
        ({ e with
            contentLength := m.fields.number? "content-length"
            chunked := m.listsChunked
            range := range
            instanceLength := instanceLength
            chunksComplete := complete
            body := BodySegments.insert [] start m.wireBody.length }, m.wireBody.length) := by
  obtain ⟨range, instanceLength, hread⟩ := e.readFields_eq
  have hline' : e.readFields.startLine = m.startLine := by rw [hread, hline]
  have hframing :=
    framing_eq hm hline' (by rw [hread]; exact hfields) (by rw [hread]) (by rw [hread]) others
  unfold Reading.readBody
  dsimp only
  rw [hframing, hread, hfields]
  unfold framing wireBody
  refine ⟨range, instanceLength, ?_⟩
  cases hcoding : m.coding with
  | bodiless => exact ⟨e.chunksComplete, by simp [BodySegments.insert, hbody, listsChunked]⟩
  | sized =>
    exact ⟨e.chunksComplete, by simp [Reading.readLengthBody, hbody, listsChunked]⟩
  | chunked size =>
    obtain ⟨body, hdecode, hconsumed, _⟩ :=
      decodeChunks_encodeChunks size (Nat.lt_of_le_of_lt (Nat.min_le_left _ _) hm.short) rest
    exact ⟨true, by simp [Reading.readChunkedBody, hdecode, hconsumed, hbody, listsChunked]⟩
  | untilClose =>
    exact ⟨e.chunksComplete, by simp [hclose hcoding, hbody, listsChunked]⟩

theorem rawBody_of_insert {e : Exchange} {start : Nat} {pre raw rest : Bytes}
    (hbody : e.body = BodySegments.insert [] start raw.length) (hstart : pre.length = start) :
    e.rawBody (pre ++ (raw ++ rest)) = raw := by
  rw [Exchange.rawBody_of_body hbody, ← hstart, List.drop_left, List.take_left]

theorem content_eq {m : Message} {maxHead : Nat} (hm : m.WellFormed maxHead) {c : Completeness}
    (hfull : m.coding = .sized → c.fallsShort m.body.length m.body.length = false)
    {e : Exchange} {stream : Bytes}
    (hfields : e.fields = m.fields) (hextract : e.extractable = true)
    (hlength : e.contentLength = m.fields.number? "content-length")
    (hchunked : e.chunked = m.listsChunked) (hraw : e.rawBody stream = m.wireBody)
    (hcoding : m.coding ≠ .bodiless) : e.content c stream = .ok m.body := by
  have hgzip : e.isGzip = false := by
    simp [Exchange.isGzip, hfields, Fields.hasToken_of_values_nil hm.plain]
  have hunframed : e.unframed c m.wireBody = .ok m.body := by
    have hframed := hm.framed
    unfold Framed at hframed
    unfold Exchange.unframed wireBody
    rw [hlength, hchunked]
    cases hc : m.coding with
    | bodiless => exact absurd hc hcoding
    | sized =>
      simp only [hc] at hframed
      obtain ⟨_, hlist, digits, hdigits, hspells⟩ := hframed
      simp [hlist, Fields.number?_of_spells hdigits hspells hm.short, hfull hc]
    | chunked size =>
      simp only [hc] at hframed
      obtain ⟨body, hdecode, _, hdata⟩ :=
        decodeChunks_encodeChunks size (Nat.lt_of_le_of_lt (Nat.min_le_left _ _) hm.short) []
      rw [List.append_nil] at hdecode
      simp [hframed.2, hdecode, hdata]
    | untilClose =>
      simp only [hc] at hframed
      simp [hframed.2.2.2, Fields.number?_of_values_nil hframed.2.2.1]
  simp [Exchange.content, hextract, hraw, hunframed, hgzip]

theorem wholeMessage_readAs {m : Message} (r : Reading) (hm : m.WellFormed r.limits.maxHead)
    (hfull : m.coding = .sized →
      r.limits.completeness.fallsShort m.body.length m.body.length = false)
    {pre rest : Bytes} (hstream : r.stream.bytes = pre ++ (m.bytes ++ rest))
    (hclose : m.coding = .untilClose → rest = []) (others : List String) :
    ∃ e, r.wholeMessage pre.length m.head.length m.startLine m.fields (m.wireBody ++ rest)
        (Reading.answersHead m.startLine (m.answers.toList ++ others)) = (e, m.wireBody.length) ∧
      m.ReadAs r.limits.completeness r.stream.bytes pre.length e := by
  let e₀ := { r.begin pre.length m.startLine with fields := m.fields, headLength := m.head.length }
  obtain ⟨range, instanceLength, complete, hread⟩ := readBody_eq r hm (e := e₀) rfl rfl rfl
    (pre.length + m.head.length) hclose others
  have hstream' : r.stream.bytes = (pre ++ m.head) ++ (m.wireBody ++ rest) := by
    simp [hstream, bytes]
  have hwhole := congrArg (fun read => (r.checkContent
    (r.locate read.1 pre.length (m.head.length + read.2)), read.2)) hread
  refine ⟨_, hwhole, ?_⟩
  dsimp only
  rw [Reading.checkContent_of_plain r hm.plain]
  refine ⟨rfl, rfl, rfl, rfl, ?_, by simp [Reading.locate, bytes], rfl, ?_⟩
  · simp only [Reading.locate, BodySegments.insert, BodySegments.put, List.length_eq_zero_iff]
  · refine content_eq hm hfull rfl rfl rfl rfl ?_
    rw [hstream']
    exact rawBody_of_insert rfl (by simp)

theorem head_ne_nil {m : Message} : m.head ≠ [] := by
  simp [head, StartLine.bytes, lineEnding]

theorem remaining_answers {m : Message} {maxHead : Nat} (hm : m.WellFormed maxHead)
    (others : List String) :
    Reading.remaining m.startLine (m.answers.toList ++ others) = others := by
  have hanswers := hm.answers
  unfold isFinal at hanswers
  unfold Reading.remaining
  cases hline : m.startLine with
  | response version status reason =>
    rw [hline] at hanswers
    by_cases hfinal : 200 ≤ status
    · obtain ⟨method, hmethod⟩ :=
        Option.isSome_iff_exists.mp (hanswers.trans (by simpa using hfinal))
      simp [hmethod, hfinal]
    · have hnone : m.answers = none := by simpa [hfinal] using hanswers
      simp [hnone, hfinal]
  | request => simp_all
  | encrypted => simp_all

theorem messagesFrom_bytes {r : Reading} {ms : List Message} (others : List String)
    (hms : ∀ m ∈ ms, m.WellFormed r.limits.maxHead)
    (hfull : ∀ m ∈ ms, m.coding = .sized →
      r.limits.completeness.fallsShort m.body.length m.body.length = false)
    (hclose : ∀ m ∈ ms.dropLast, m.coding ≠ .untilClose) {pre : Bytes}
    (hstream : r.stream.bytes = pre ++ ms.flatMap bytes) :
    List.Forall₂ (fun (place, m) e => m.ReadAs r.limits.completeness r.stream.bytes place e)
      (placed pre.length ms)
      (r.messagesFrom pre.length (ms.flatMap bytes) (ms.filterMap answers ++ others)) := by
  induction ms generalizing pre with
  | nil =>
    rw [List.flatMap_nil, Reading.messagesFrom_eq]
    exact .nil
  | cons m ms ih =>
    have hm := hms m List.mem_cons_self
    have hrest : m.coding = .untilClose → ms.flatMap bytes = [] := by
      intro hcoding
      cases ms with
      | nil => rfl
      | cons next ms => exact absurd hcoding (hclose m List.mem_cons_self)
    have hhead := readHead?_append hm.startLine hm.headers hm.head (m.wireBody ++ ms.flatMap bytes)
    have hsize : m.head.length = m.startLine.bytes.length + (headerBytes m.headers).length := by
      simp [head]
    have hbytes : (m :: ms).flatMap bytes =
        m.startLine.bytes ++ headerBytes m.headers ++ (m.wireBody ++ ms.flatMap bytes) := by
      simp [bytes, head]
    have hmethods : (m :: ms).filterMap answers ++ others =
        m.answers.toList ++ (ms.filterMap answers ++ others) := by
      rw [List.filterMap_cons]
      cases m.answers <;> rfl
    obtain ⟨e, hwhole, hread⟩ := wholeMessage_readAs r hm (hfull m List.mem_cons_self)
      (by simpa using hstream) hrest (ms.filterMap answers ++ others)
    have htotal : m.head.length + m.wireBody.length = m.bytes.length := by simp [bytes]
    have hdrop : ((m :: ms).flatMap bytes).drop m.bytes.length = ms.flatMap bytes := by simp
    rw [hmethods, Reading.messagesFrom_of_head (by rw [hbytes]; exact hhead)
      (by simp [StartLine.bytes, lineEnding]) (by simp [bytes, head_ne_nil]), ← hsize]
    dsimp only
    rw [show m.headers.map HeaderLine.field = m.fields from rfl, hwhole]
    dsimp only
    rw [htotal, hdrop, remaining_answers hm, placed]
    refine .cons hread ?_
    have hstream' : r.stream.bytes = (pre ++ m.bytes) ++ ms.flatMap bytes := by simpa using hstream
    have ih := ih (fun m hm => hms m (List.mem_cons_of_mem _ hm))
      (fun m hm => hfull m (List.mem_cons_of_mem _ hm)) ?_ hstream'
    · simpa only [List.length_append] using ih
    · intro m' hm'
      cases ms with
      | nil => exact absurd hm' List.not_mem_nil
      | cons next ms => exact hclose m' (List.mem_cons_of_mem _ hm')

/-- Replies with each kind of body: to a HEAD request, with a length, in chunks, and up to the
end. -/
def sampleReplies : List Message :=
  let reply (status : Nat) (reason : String) (headers : List (String × String))
      (coding : BodyCoding) (body : String) (answers : Option String) : Message :=
    ⟨.response "HTTP/1.1" status reason,
      headers.map fun (name, value) => ⟨utf8Bytes name, utf8Bytes value, [32], []⟩,
      coding, utf8Bytes body, answers⟩
  [reply 200 "OK" [("Content-Length", "5")] .bodiless "" (some "HEAD"),
    reply 100 "" [] .bodiless "" none,
    reply 200 "OK" [("Content-Length", "005")] .sized "hello" (some "GET"),
    reply 206 "Partial Content" [("Transfer-Encoding", "gzip, Chunked")] (.chunked 4) "in pieces"
      (some "POST"),
    reply 404 "Not Found" [] .untilClose "gone" (some "GET")]

end Message

/-- Reading undoes writing. However the stream came about, messages that fill it are read back in
order, each at the place where the one before it ends, with its own start line, fields and body and
without a problem. The methods are those of the requests answered; any others are left over. -/
theorem messages_of_bytes {r : Reading} {ms : List Message} (others : List String)
    (hms : ∀ m ∈ ms, m.WellFormed r.limits.maxHead)
    (hfull : ∀ m ∈ ms, m.coding = .sized →
      r.limits.completeness.fallsShort m.body.length m.body.length = false)
    (hclose : ∀ m ∈ ms.dropLast, m.coding ≠ .untilClose)
    (hstream : r.stream.bytes = ms.flatMap Message.bytes) :
    List.Forall₂ (fun (place, m) e => m.ReadAs r.limits.completeness r.stream.bytes place e)
      (Message.placed 0 ms) (r.messages (ms.filterMap Message.answers ++ others)) := by
  have hstream' : r.stream.bytes = [] ++ ms.flatMap Message.bytes := hstream
  have h := Message.messagesFrom_bytes others hms hfull hclose hstream'
  rwa [← hstream] at h

/-- The sample replies, each byte in a packet of its own. -/
theorem messages_of_bytes_sampleReplies :
    let ms := Message.sampleReplies
    let pieces := (ms.flatMap Message.bytes).zipIdx.map fun (b, i) => ⟨i, [b]⟩
    let r : Reading := ⟨⟨.standard, 80⟩, 0, .downlink, .ofPieces pieces, fun _ => .zero⟩
    (∀ m ∈ ms, m.WellFormed 80) ∧
    (∀ m ∈ ms, m.coding = .sized →
      Completeness.standard.fallsShort m.body.length m.body.length = false) ∧
    (∀ m ∈ ms.dropLast, m.coding ≠ .untilClose) ∧
    r.stream.bytes = ms.flatMap Message.bytes ∧
    List.Forall₂ (fun (place, m) e => m.ReadAs .standard r.stream.bytes place e)
      (Message.placed 0 ms) (r.messages ["HEAD", "GET", "POST", "GET"]) := by
  intro ms pieces r
  have hms : ∀ m ∈ ms, m.WellFormed 80 := by
    simp only [ms, Message.sampleReplies, List.forall_mem_cons]
    refine ⟨⟨?_, ?_, ?_, rfl, .inl rfl, ?_, rfl⟩, ⟨?_, ?_, ?_, rfl, .inl rfl, ?_, rfl⟩,
      ⟨?_, ?_, ?_, rfl, ⟨rfl, ?_, _, rfl, ?_⟩, ?_, rfl⟩, ⟨?_, ?_, ?_, rfl, ⟨rfl, ?_⟩, ?_, rfl⟩,
      ⟨?_, ?_, ?_, rfl, ⟨rfl, rfl, rfl, rfl⟩, ?_, rfl⟩, by simp⟩
    all_goals decide +kernel
  have hfull : ∀ m ∈ ms, m.coding = .sized →
      Completeness.standard.fallsShort m.body.length m.body.length = false := by decide +kernel
  have hclose : ∀ m ∈ ms.dropLast, m.coding ≠ .untilClose := by decide
  have hstream : r.stream.bytes = ms.flatMap Message.bytes := by
    decide +kernel
  exact ⟨hms, hfull, hclose, hstream, messages_of_bytes (r := r) [] hms hfull hclose hstream⟩

end HttpCapture
