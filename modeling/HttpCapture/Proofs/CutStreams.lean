import HttpCapture.Proofs.PrefixReading
import HttpCapture.Proofs.StreamSegments

/-! A stream that is cut short is read like the whole stream up to its last message. The cut
can only be met by the message that takes all the bytes left, or where no whole line is left
to begin another one. -/

namespace HttpCapture

/-- The part of a segment in front of `n`. -/
def StreamSegment.clip (n : Nat) (s : StreamSegment) : StreamSegment :=
  { s with length := min s.length (n - s.offset) }

namespace StreamBuffer

/-- The first `n` bytes of a stream, with the segments clipped to them. -/
def cutTo (b : StreamBuffer) (n : Nat) : StreamBuffer where
  bytes := b.bytes.take n
  segments := (b.segments.filter fun s => s.offset < n).map (StreamSegment.clip n)

def Ascending (b : StreamBuffer) : Prop := b.segments.Pairwise fun s t => s.offset ≤ t.offset

theorem ascending_ofPieces (ps : List Piece) : (ofPieces ps).Ascending := by
  refine (layOut_ascending 0 ps).imp fun {s t} h => ?_
  exact Nat.le_trans (Nat.le_add_right _ _) h

variable {b : StreamBuffer} {n offset : Nat}

/-- The first segment of a kind is found among those in front of the cut, if it begins there. -/
theorem find?_cutTo (h : b.Ascending) {p q : StreamSegment → Bool}
    (hpq : ∀ s : StreamSegment, s.offset < n → p (s.clip n) = q s) :
    (b.cutTo n).segments.find? p =
      ((b.segments.find? q).filter fun s => s.offset < n).map (StreamSegment.clip n) := by
  obtain ⟨bytes, segments⟩ := b
  unfold Ascending at h
  unfold cutTo
  dsimp only at h ⊢
  induction segments with
  | nil => rfl
  | cons s segments ih =>
    obtain ⟨hle, hsorted⟩ := List.pairwise_cons.mp h
    have ih := ih hsorted
    by_cases hn : s.offset < n
    · have hs := hpq s hn
      by_cases hq : q s = true
      · simp [hn, hs, hq, Option.filter]
      · simpa [hn, hs, hq] using ih
    · -- What follows begins behind the cut as well.
      have hnone : segments.filter (fun s => s.offset < n) = [] := by
        refine List.filter_eq_nil_iff.mpr fun t ht => ?_
        have := hle t ht
        simp only [decide_eq_true_eq]
        omega
      rw [hnone] at ih
      by_cases hq : q s = true
      · simp [hn, hq, hnone, Option.filter]
      · simpa [hn, hq, hnone] using ih

theorem packetAt_cutTo (h : b.Ascending) (hlt : offset < n) :
    (b.cutTo n).packetAt offset = b.packetAt offset := by
  have hstop : ∀ s : StreamSegment, s.offset < n →
      decide (offset < (s.clip n).stop) = decide (offset < s.stop) := by
    intro s hs
    rw [decide_eq_decide, StreamSegment.stop, StreamSegment.stop, StreamSegment.clip]
    dsimp only
    omega
  unfold packetAt
  rw [find?_cutTo h hstop]
  cases b.segments.find? fun s => offset < s.stop with
  | none => rfl
  | some s =>
    by_cases hs : s.offset < n
    · by_cases hle : s.offset ≤ offset <;> simp [Option.filter, StreamSegment.clip, hs, hle]
    · have hle : ¬s.offset ≤ offset := by omega
      simp [Option.filter, hs, hle]

theorem nextBoundary_cutTo (h : b.Ascending) (n offset : Nat) :
    (b.cutTo n).nextBoundary offset = (b.nextBoundary offset).filter fun place => place < n := by
  unfold nextBoundary
  rw [find?_cutTo h (q := fun s => offset < s.offset) fun _ _ => rfl]
  cases b.segments.find? fun s => offset < s.offset with
  | none => rfl
  | some s => by_cases hs : s.offset < n <;> simp [Option.filter, StreamSegment.clip, hs]

end StreamBuffer

namespace Exchange

/-- A body that ends in front of the cut has the same content in both streams. -/
theorem content_take {e : Exchange} {start size n : Nat} (c : Completeness) (stream : Bytes)
    (hbody : e.body = BodySegments.insert [] start size) (hn : start + size ≤ n) :
    e.content c (stream.take n) = e.content c stream := by
  have hraw : e.rawBody (stream.take n) = e.rawBody stream := by
    rw [rawBody_of_body hbody, rawBody_of_body hbody, List.drop_take, List.take_take,
      Nat.min_eq_left (by omega)]
  unfold content
  rw [hraw]

end Exchange

namespace Reading

def cutTo (r : Reading) (n : Nat) : Reading := { r with stream := r.stream.cutTo n }

variable {r : Reading} {n : Nat}

theorem body_readBody (r : Reading) (e : Exchange) (start : Nat) (bs : Bytes) (answersHead : Bool) :
    (r.readBody e start bs answersHead).1.body =
      e.body.insert start (r.readBody e start bs answersHead).2 := by
  obtain ⟨_, _, hfields⟩ := e.readFields_eq
  obtain ⟨_, _, _, heq⟩ := r.exists_readBody_eq e start bs answersHead
  have hbody : e.readFields.body = e.body := by rw [hfields]
  rw [← hbody]
  exact congrArg Exchange.body heq

/-- A body in front of a whole line is read alike, however the stream goes on. -/
theorem readBody_append (r : Reading) {e : Exchange} {start : Nat} {bs : Bytes} {answersHead : Bool}
    (h : lineFeed ∈ bs.drop (r.readBody e start bs answersHead).2) (more : Bytes) :
    r.readBody e start (bs ++ more) answersHead = r.readBody e start bs answersHead := by
  unfold readBody at h ⊢
  dsimp only at h ⊢
  cases hframing : e.readFields.framing answersHead with
  | none => rfl
  | untilClose =>
    rw [hframing] at h
    simp at h
  | length declared =>
    rw [hframing] at h
    have hshort : declared < bs.length := by
      have hlt := List.length_pos_of_mem h
      have hsize : (r.readLengthBody e.readFields start declared bs.length).2 =
          min declared bs.length := by
        unfold readLengthBody
        dsimp only
        split <;> rfl
      rw [List.length_drop] at hlt
      dsimp only at hlt
      rw [hsize] at hlt
      omega
    have hsame : min declared (bs ++ more).length = min declared bs.length := by
      rw [List.length_append]
      omega
    dsimp only
    unfold readLengthBody
    rw [hsame]
  | chunked =>
    rw [hframing] at h
    dsimp only at h ⊢
    have hmore : (scanChunks 0 bs).2 ≠ .truncated →
        lineFeed ∈ bs.drop (scanChunks 0 bs).1.consumed →
        scanChunks 0 (bs ++ more) = scanChunks 0 bs := fun hend hfeed =>
      scanChunks_append hend (by rwa [Nat.sub_zero]) more
    unfold readChunkedBody decodeChunks at h ⊢
    rcases hscan : scanChunks 0 bs with ⟨body, outcome⟩
    rw [hscan] at h hmore
    cases outcome with
    | complete => rw [hmore (by simp) h]
    | truncated =>
      rw [List.drop_length] at h
      exact absurd h List.not_mem_nil
    | malformed offset =>
      have hoffset := scanChunks_malformed (congrArg (·.2) hscan)
      rw [hscan] at hoffset
      rw [hmore (by simp) (hoffset ▸ h)]

theorem locate_cutTo (h : r.stream.Ascending) (e : Exchange) {start size : Nat} (hsize : 0 < size)
    (hn : start + size ≤ n) : (r.cutTo n).locate e start size = r.locate e start size := by
  have hfirst := StreamBuffer.packetAt_cutTo h (show start < n by omega)
  have hlast := StreamBuffer.packetAt_cutTo h (show max (start + size - 1) start < n by omega)
  unfold locate
  rw [show (r.cutTo n).stream = r.stream.cutTo n from rfl, hfirst, hlast]
  rfl

theorem checkContent_cutTo {e : Exchange} {start size : Nat}
    (hbody : e.body = BodySegments.insert [] start size) (hn : start + size ≤ n) :
    (r.cutTo n).checkContent e = r.checkContent e := by
  have hcontent := Exchange.content_take r.limits.completeness r.stream.bytes hbody hn
  unfold checkContent
  rw [show (r.cutTo n).stream.bytes = r.stream.bytes.take n from rfl,
    show (r.cutTo n).limits = r.limits from rfl, hcontent]

/-- A message in front of a whole line is read alike in the cut stream and in the whole one. -/
theorem wholeMessage_cutTo (h : r.stream.Ascending) {pos headSize : Nat} {startLine : StartLine}
    {fields : Fields} {bs : Bytes} {answersHead : Bool} (hhead : 0 < headSize)
    (hn : pos + headSize + bs.length ≤ n)
    (hfeed : lineFeed ∈
      bs.drop ((r.cutTo n).wholeMessage pos headSize startLine fields bs answersHead).2)
    (more : Bytes) :
    r.wholeMessage pos headSize startLine fields (bs ++ more) answersHead =
      (r.cutTo n).wholeMessage pos headSize startLine fields bs answersHead := by
  let start := { r.begin pos startLine with fields := fields, headLength := headSize }
  let read := r.readBody start (pos + headSize) bs answersHead
  have hmore : r.readBody start (pos + headSize) (bs ++ more) answersHead = read :=
    r.readBody_append hfeed more
  have hsize : read.2 ≤ bs.length := r.readBody_size_le _ _ _ _
  have hbody : read.1.body = BodySegments.insert [] (pos + headSize) read.2 :=
    r.body_readBody _ _ _ _
  have hlocate : (r.cutTo n).locate read.1 pos (headSize + read.2) =
      r.locate read.1 pos (headSize + read.2) := locate_cutTo h read.1 (by omega) (by omega)
  have hcheck : (r.cutTo n).checkContent (r.locate read.1 pos (headSize + read.2)) =
      r.checkContent (r.locate read.1 pos (headSize + read.2)) :=
    checkContent_cutTo hbody (by omega)
  calc r.wholeMessage pos headSize startLine fields (bs ++ more) answersHead
      = (r.checkContent (r.locate read.1 pos (headSize + read.2)), read.2) := by
        rw [← hmore]
        rfl
    _ = ((r.cutTo n).checkContent ((r.cutTo n).locate read.1 pos (headSize + read.2)), read.2) := by
        rw [hlocate, hcheck]

theorem Cuts.eq_nil {pos : Nat} {bs : Bytes} {methods : List String} {es : List Exchange}
    (h : r.Cuts pos bs methods es) (hfeed : lineFeed ∉ bs) : es = [] := by
  have hnone : ∀ {bs : Bytes} {head : Head}, lineFeed ∉ bs →
      readHead? r.limits.maxHead bs ≠ some head := by
    intro bs head hfeed hhead
    obtain ⟨l, hl, -⟩ := Option.bind_eq_some_iff.mp hhead
    exact hfeed (lineFeed_mem_of_firstLine? (lineWithin?_eq_some hl).1)
  induction h with
  | done => rfl
  | skip _ _ _ ih => exact ih fun hmem => hfeed (List.mem_of_mem_drop hmem)
  | cut hhead => exact absurd hhead (hnone hfeed)
  | whole hhead => exact absurd hhead (hnone hfeed)

theorem gap_of_nextBoundary {pos place : Nat} (h : r.stream.nextBoundary pos = some place)
    (bs : Bytes) : r.gap pos bs = place - pos := by
  rw [gap, h]

theorem messagesFrom_of_skip {pos : Nat} {bs : Bytes} {methods : List String} (hne : bs ≠ [])
    (h : ∀ head ∈ readHead? r.limits.maxHead bs, head.block = .oversized) :
    r.messagesFrom pos bs methods =
      r.messagesFrom (pos + r.gap pos bs) (bs.drop (r.gap pos bs)) methods := by
  rw [messagesFrom_eq, dif_neg hne]
  cases hhead : readHead? r.limits.maxHead bs with
  | none => rfl
  | some head =>
    obtain ⟨startLine, lineSize, block⟩ := head
    obtain rfl : block = .oversized := h _ hhead
    rfl

/-- Where no message begins in the cut stream, none begins in the whole one, if a line follows. -/
theorem skip_append {limit : Nat} {bs : Bytes} (hfeed : lineFeed ∈ bs)
    (h : ∀ head ∈ readHead? limit bs, head.block = .oversized) (more : Bytes) :
    ∀ head ∈ readHead? limit (bs ++ more), head.block = .oversized := by
  cases hhead : readHead? limit bs with
  | none => simp [readHead?_append_of_none hhead hfeed more]
  | some head =>
    have hblock := h head hhead
    have hmore := readHead?_append_of_some hhead (by rw [hblock]; rfl) more
    rw [hblock] at hmore
    simp [hmore, HeaderBlock.followedBy]

theorem exists_drop_append {l part : Bytes} {pos : Nat} (h : part = (l.take n).drop pos) :
    ∃ more, l.drop pos = part ++ more := by
  refine ⟨(l.drop n).drop (pos - (l.take n).length), ?_⟩
  rw [h, ← List.drop_append, List.take_append_drop]

theorem Cuts.dropLast_isPrefix (h : r.stream.Ascending) {pos : Nat} {bs : Bytes}
    {methods : List String} {es : List Exchange} (hcuts : (r.cutTo n).Cuts pos bs methods es)
    (hbs : bs = (r.stream.bytes.take n).drop pos) :
    es.dropLast <+: r.messagesFrom pos (r.stream.bytes.drop pos) methods := by
  induction hcuts with
  | done => exact List.nil_prefix
  | cut => exact List.nil_prefix
  | @skip pos bs methods es hne hhead hrest ih =>
    by_cases hfeed : lineFeed ∈ bs
    · have hnext : (r.cutTo n).stream.nextBoundary pos =
          (r.stream.nextBoundary pos).filter fun place => place < n :=
        StreamBuffer.nextBoundary_cutTo h n pos
      obtain ⟨more, hmore⟩ := exists_drop_append hbs
      have hskip : r.messagesFrom pos (bs ++ more) methods = r.messagesFrom
          (pos + r.gap pos (bs ++ more)) ((bs ++ more).drop (r.gap pos (bs ++ more))) methods :=
        messagesFrom_of_skip (List.append_ne_nil_of_left_ne_nil hne more)
          (skip_append hfeed hhead more)
      cases hplace : (r.cutTo n).stream.nextBoundary pos with
      | none =>
        have hall : (r.cutTo n).gap pos bs = bs.length := by rw [gap, hplace]
        rw [hall, List.drop_length] at hrest
        rw [hrest.eq_nil List.not_mem_nil]
        exact List.nil_prefix
      | some place =>
        have hwhole := (Option.filter_eq_some_iff.mp (hnext.symm.trans hplace)).1
        rw [gap_of_nextBoundary hplace] at ih
        rw [hmore, hskip, gap_of_nextBoundary hwhole, ← hmore, List.drop_drop]
        exact ih (by rw [hbs, List.drop_drop])
    · rw [hrest.eq_nil fun hmem => hfeed (List.mem_of_mem_drop hmem)]
      exact List.nil_prefix
  | @whole pos bs methods startLine lineSize fields size rest e bodySize es hhead
      hmessage hrest ih =>
    have hline := (readHead?_eq_some hhead).1
    have hsize := readHead?_size hhead
    have hdrop : bs.drop (lineSize + size + bodySize) = rest.drop bodySize := by
      rw [readHead?_rest hhead, List.drop_drop]
    dsimp only at hline
    by_cases hfeed : lineFeed ∈ rest.drop bodySize
    · obtain ⟨more, hmore⟩ := exists_drop_append hbs
      have hn : pos + (lineSize + size) + rest.length ≤ n := by
        have hlen := congrArg List.length hbs
        rw [List.length_drop, List.length_take] at hlen
        omega
      have hsame := wholeMessage_cutTo h (by omega) hn (by rwa [hmessage]) more
      have hne : bs ++ more ≠ [] :=
        List.append_ne_nil_of_left_ne_nil (List.ne_nil_of_length_pos (by omega)) more
      have hlonger : readHead? r.limits.maxHead (bs ++ more) =
          some ⟨startLine, lineSize, .complete fields size (rest ++ more)⟩ :=
        readHead?_append_of_some hhead rfl more
      rw [hmore, messagesFrom_of_head hlonger hline hne]
      dsimp only
      rw [hsame, hmessage, ← hmore, List.drop_drop]
      cases es with
      | nil => exact List.nil_prefix
      | cons next es =>
        rw [List.dropLast_cons_cons]
        exact List.cons_prefix_cons.mpr ⟨rfl, ih (by rw [hbs, List.drop_drop])⟩
    · rw [hrest.eq_nil (by rwa [hdrop])]
      exact List.nil_prefix

end Reading

/-- Cutting a stream short disturbs at most the last of the messages that are left: those in front
of it are the first messages of the whole stream. -/
theorem dropLast_messages_cutTo_isPrefix (r : Reading) (ps : List Piece) (n : Nat)
    (methods : List String) :
    let whole := { r with stream := .ofPieces ps }
    ((whole.cutTo n).messages methods).dropLast <+: whole.messages methods := by
  intro whole
  have hcuts := (whole.cutTo n).cuts_messages methods
  exact hcuts.dropLast_isPrefix (StreamBuffer.ascending_ofPieces ps) rfl

end HttpCapture
