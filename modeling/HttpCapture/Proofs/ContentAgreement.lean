import HttpCapture.Proofs.ChunkPlaces
import HttpCapture.Proofs.RepeatedBytes

/-! Where two contents agree. Each is put at its place in the object: two contents match on a range
if it is all that both places have in common and the bytes are the same at each of its positions.
Which of the two comes first does not matter, and no slice that the comparison takes lies outside of
what it is taken from. -/

namespace HttpCapture

/-- The content of an exchange fills `r` in the object. It begins where the range of the exchange
does, or at zero. -/
structure Exchange.Places (e : Exchange) (content : Bytes) (r : ByteRange) : Prop where
  nonempty : content ≠ []
  first : r.first.toNat = e.origin
  last : r.last.toNat + 1 = e.origin + content.length

/-- Both contents have a place, the places meet in `r`, and there the contents are the same. -/
structure AgreeOn (a : Exchange) (ca : Bytes) (b : Exchange) (cb : Bytes) (r : ByteRange) :
    Prop where
  places : ∃ ra rb, a.Places ca ra ∧ b.Places cb rb ∧ r.positions = ra.positions ∩ rb.positions
  nonempty : r.isEmpty = false
  bytes : ∀ x ∈ r.positions, ca[x - a.origin]? = cb[x - b.origin]?

section Placement

variable {a b : Exchange} {ca cb : Bytes} {ra rb r : ByteRange}

theorem ByteRange.ofLength?_eq_some_iff {first : UInt64} {length : Nat} :
    ofLength? first length = some r ↔
      r.first = first ∧ r.last.toNat + 1 = first.toNat + length ∧ 0 < length ∧ length < 2 ^ 64 := by
  constructor
  · intro h
    obtain ⟨hfirst, hlast, hpos, hlt⟩ := ofLength?_eq_some h
    exact ⟨hfirst, by omega, hpos, hlt⟩
  · rintro ⟨rfl, hend, hpos, hlt⟩
    have hlast := r.last.toNat_lt
    unfold ofLength?
    rw [if_neg (by omega)]
    refine congrArg some (eq_of_toNat_eq rfl ?_)
    show (UInt64.ofNat (r.first.toNat + (length - 1))).toNat = r.last.toNat
    rw [UInt64.toNat_ofNat']
    omega

theorem Exchange.placement_eq_some_iff (hlen : ca.length < wordBound) :
    a.placement ca.length = some r ↔ a.Places ca r := by
  rw [placement, ByteRange.ofLength?_eq_some_iff, ← UInt64.toNat_inj]
  constructor
  · rintro ⟨hfirst, hend, hpos, -⟩
    exact ⟨List.ne_nil_of_length_pos hpos, hfirst, hend⟩
  · rintro ⟨hne, hfirst, hend⟩
    exact ⟨hfirst, hend, List.length_pos_iff.mpr hne, hlen⟩

theorem window_eq_iff {u v : UInt64} (hr : r.isEmpty = false) (hu : u.toNat ≤ r.first.toNat)
    (hv : v.toNat ≤ r.first.toNat) :
    window ca u r = window cb v r ↔ ∀ x ∈ r.positions, ca[x - u.toNat]? = cb[x - v.toNat]? := by
  refine ⟨fun h x hx => ?_, fun h => ?_⟩
  · rw [← Capture.getElem?_window ca hu hx, h, Capture.getElem?_window cb hv hx]
  · by_contra hne
    obtain ⟨x, hx, hbyte⟩ := Capture.exists_ne_of_window_ne hr hu hv hne
    exact hbyte (h x hx)

/-- The comparison of two contents says that they agree exactly where they do. -/
theorem overlap_eq_some_true_iff (ha : ca.length < wordBound) (hb : cb.length < wordBound) :
    overlap a ca b cb = some (r, true) ↔ AgreeOn a ca b cb r := by
  simp only [Capture.overlap_eq_some_iff, Exchange.placement_eq_some_iff ha,
    Exchange.placement_eq_some_iff hb, beq_iff_eq]
  constructor
  · rintro ⟨ra, rb, hra, hrb, hinter, hsame⟩
    obtain ⟨hr, hmeet⟩ := ByteRange.inter?_eq_some_iff.mp hinter
    obtain ⟨hu, hv⟩ := ByteRange.first_le_of_inter? hinter
    rw [window_eq_iff hr hu hv, hra.first, hrb.first] at hsame
    exact ⟨⟨ra, rb, hra, hrb, hmeet⟩, hr, hsame⟩
  · rintro ⟨⟨ra, rb, hra, hrb, hmeet⟩, hr, hbytes⟩
    have hinter := ByteRange.inter?_eq_some_iff.mpr ⟨hr, hmeet⟩
    obtain ⟨hu, hv⟩ := ByteRange.first_le_of_inter? hinter
    refine ⟨ra, rb, hra, hrb, hinter, ?_⟩
    rw [window_eq_iff hr hu hv, hra.first, hrb.first]
    exact hbytes

theorem AgreeOn.symm (h : AgreeOn a ca b cb r) : AgreeOn b cb a ca r := by
  obtain ⟨ra, rb, hra, hrb, hmeet⟩ := h.places
  exact ⟨⟨rb, ra, hrb, hra, by rw [hmeet, Finset.inter_comm]⟩, h.nonempty,
    fun x hx => (h.bytes x hx).symm⟩

theorem exists_agreeOn_self (hne : ca ≠ []) (horigin : a.origin = b.origin)
    (hfits : a.origin + ca.length ≤ wordBound) : ∃ r, AgreeOn a ca b ca r := by
  have hpos := List.length_pos_iff.mpr hne
  simp only [wordBound] at hfits
  let r : ByteRange := ⟨.ofNat a.origin, .ofNat (a.origin + (ca.length - 1))⟩
  have hfirst : r.first.toNat = a.origin := by
    rw [UInt64.toNat_ofNat']
    omega
  have hlast : r.last.toNat + 1 = a.origin + ca.length := by
    rw [UInt64.toNat_ofNat']
    omega
  refine ⟨r, ⟨r, r, ⟨hne, hfirst, hlast⟩, ⟨hne, ?_, ?_⟩, ?_⟩, ?_, ?_⟩
  · rw [hfirst, horigin]
  · rw [hlast, horigin]
  · rw [Finset.inter_self]
  · rw [ByteRange.isEmpty_eq_false]
    omega
  · rw [horigin]
    exact fun _ _ => rfl

end Placement

namespace Capture

variable {c : Completeness} {a b x : Capture} {ca cb : Bytes} {r : ByteRange}

/-- The pieces of the body lie among places of 64 bits, and so do the bytes that are made of them,
as all bytes that are held in memory. -/
structure Fits (c : Completeness) (x : Capture) : Prop where
  pieces : ∀ piece ∈ x.exchange.body, piece.1 + piece.2 < wordBound
  body : (x.exchange.rawBody x.stream).length < wordBound
  content : ∀ bytes, x.content c = .ok bytes → bytes.length < wordBound

theorem Fits.of_content {bytes : Bytes}
    (hpieces : ∀ piece ∈ x.exchange.body, piece.1 + piece.2 < wordBound)
    (hbody : (x.exchange.rawBody x.stream).length < wordBound) (hx : x.content c = .ok bytes)
    (hlen : bytes.length < wordBound) : x.Fits c where
  pieces := hpieces
  body := hbody
  content _ h := Except.ok.inj (hx.symm.trans h) ▸ hlen

theorem matchingRange_eq_some_iff (ha : a.Fits c) (hb : b.Fits c) :
    matchingRange c a b = some r ↔ ∃ ca cb, a.content c = .ok ca ∧ b.content c = .ok cb ∧
      AgreeOn a.exchange ca b.exchange cb r ∧ (areWhole a b = true → ca = cb) := by
  unfold matchingRange
  split
  · next ca cb hca hcb =>
    have hagree : overlap a.exchange ca b.exchange cb = some (r, true) ↔
        AgreeOn a.exchange ca b.exchange cb r :=
      overlap_eq_some_true_iff (ha.content ca hca) (hb.content cb hcb)
    rw [hca, hcb]
    constructor
    · intro h
      split at h
      · exact absurd h (by simp)
      · next hwhole =>
        obtain ⟨⟨part, same⟩, hoverlap, hsome⟩ := Option.bind_eq_some_iff.mp h
        obtain ⟨rfl, rfl⟩ : same = true ∧ part = r := by simpa using hsome
        exact ⟨ca, cb, rfl, rfl, hagree.mp hoverlap, by simpa using hwhole⟩
    · rintro ⟨_, _, ⟨⟩, ⟨⟩, hr, hwhole⟩
      rw [if_neg (by simpa using hwhole), hagree.mpr hr]
      rfl
  · next hno =>
    simp only [reduceCtorEq, false_iff]
    rintro ⟨ca, cb, hca, hcb, -⟩
    exact hno ca cb hca hcb

theorem areWhole_comm : areWhole b a = areWhole a b := Bool.and_comm _ _

theorem matchingRange_comm (ha : a.Fits c) (hb : b.Fits c) :
    matchingRange c b a = matchingRange c a b := by
  have hswap {a b : Capture} {r : ByteRange} (ha : a.Fits c) (hb : b.Fits c)
      (h : matchingRange c a b = some r) : matchingRange c b a = some r := by
    obtain ⟨ca, cb, hca, hcb, hr, hwhole⟩ := (matchingRange_eq_some_iff ha hb).mp h
    refine (matchingRange_eq_some_iff hb ha).mpr ⟨cb, ca, hcb, hca, hr.symm, fun h => ?_⟩
    exact (hwhole (areWhole_comm.trans h)).symm
  exact Option.ext fun r => ⟨hswap hb ha, hswap ha hb⟩

theorem origin_eq_zero (h : x.exchange.range.isNone = true) : x.exchange.origin = 0 := by
  rw [Option.isNone_iff_eq_none] at h
  rw [Exchange.origin, h]
  rfl

theorem origin_of_areWhole (h : areWhole a b = true) : a.exchange.origin = b.exchange.origin := by
  obtain ⟨ha, hb⟩ := Bool.and_eq_true_iff.mp h
  rw [origin_eq_zero ha, origin_eq_zero hb]

theorem sameContent_of_areWhole (h : areWhole a b = true) :
    sameContent c a b = true ↔ ∃ bytes, a.content c = .ok bytes ∧ b.content c = .ok bytes := by
  unfold sameContent
  split
  · next ca cb hca hcb =>
    rw [if_pos h, beq_iff_eq, hca, hcb]
    constructor
    · rintro rfl
      exact ⟨ca, rfl, rfl⟩
    · rintro ⟨_, ⟨⟩, ⟨⟩⟩
      rfl
  · next hno =>
    simp only [Bool.false_eq_true, false_iff]
    rintro ⟨bytes, hca, hcb⟩
    exact hno bytes bytes hca hcb

theorem sameContent_of_not_areWhole (h : areWhole a b = false) :
    sameContent c a b = (matchingRange c a b).isSome := by
  unfold sameContent matchingRange
  split
  · rw [h, if_neg Bool.false_ne_true, Bool.false_and, if_neg Bool.false_ne_true]
    rcases overlap a.exchange _ b.exchange _ with _ | ⟨r, _ | _⟩ <;> rfl
  · rfl

theorem sameContent_iff (ha : a.Fits c) (hb : b.Fits c) :
    sameContent c a b = true ↔ (matchingRange c a b).isSome = true ∨
      (areWhole a b = true ∧ a.content c = .ok [] ∧ b.content c = .ok []) := by
  cases hwhole : areWhole a b with
  | false => simp [sameContent_of_not_areWhole hwhole]
  | true =>
    rw [sameContent_of_areWhole hwhole, Option.isSome_iff_exists]
    constructor
    · rintro ⟨bytes, hca, hcb⟩
      by_cases hne : bytes = []
      · exact .inr ⟨rfl, hne ▸ hca, hne ▸ hcb⟩
      · have horigin := origin_of_areWhole hwhole
        have hfits : a.exchange.origin + bytes.length ≤ wordBound := by
          rw [origin_eq_zero (Bool.and_eq_true_iff.mp hwhole).1, Nat.zero_add]
          exact Nat.le_of_lt (ha.content bytes hca)
        obtain ⟨r, hr⟩ := exists_agreeOn_self hne horigin hfits
        refine .inl ⟨r, (matchingRange_eq_some_iff ha hb).mpr ?_⟩
        exact ⟨bytes, bytes, hca, hcb, hr, fun _ => rfl⟩
    · rintro (⟨r, hr⟩ | ⟨-, hca, hcb⟩)
      · obtain ⟨ca, cb, hca, hcb, -, hsame⟩ := (matchingRange_eq_some_iff ha hb).mp hr
        exact ⟨ca, hca, hsame hwhole ▸ hcb⟩
      · exact ⟨[], hca, hcb⟩

theorem sameContent_comm (ha : a.Fits c) (hb : b.Fits c) :
    sameContent c b a = sameContent c a b := by
  rw [Bool.eq_iff_iff, sameContent_iff ha hb, sameContent_iff hb ha, matchingRange_comm ha hb,
    areWhole_comm, and_comm (a := b.content c = .ok [])]

end Capture

section Checked

/-- The bytes between two places, unless these are in the wrong order or one lies behind the end. -/
def slice? (input : Bytes) (start stop : Nat) : Option Bytes :=
  if start ≤ stop ∧ stop ≤ input.length then some ((input.drop start).take (stop - start)) else none

def Exchange.piece? (stream : Bytes) (piece : Nat × Nat) : Option Bytes := do
  let stop := min (← addPlaces? piece.1 piece.2) stream.length
  if piece.1 < stop then slice? stream piece.1 stop else return []

def Exchange.rawBody? (stream : Bytes) (e : Exchange) : Option Bytes :=
  (e.body.mapM (piece? stream)).map List.flatten

/-- The bytes at the places of the chunks, each of which has to lie in the input. -/
def ChunkedBody.collect? (b : ChunkedBody) (input : Bytes) : Option Bytes :=
  (b.chunks.mapM fun chunk : Chunk =>
    (addPlaces? chunk.offset chunk.data.length).bind (slice? input chunk.offset)).map List.flatten

def Exchange.unframed? (c : Completeness) (e : Exchange) (raw : Bytes) :
    Option (Except ContentError Bytes) :=
  if e.chunked then
    (decodePlaces? raw).bind fun
      | .ok body => (body.collect? raw).map .ok
      | .error err => (err.before.collect? raw).map (.error <| .chunkFramingCorrupt ·)
  else some (e.unframed c raw)

/-- The window by places in the content, the last one included. -/
def window? (content : Bytes) (origin : UInt64) (r : ByteRange) : Option Bytes := do
  let start ← subPlaces? r.first.toNat origin.toNat
  let last ← subPlaces? r.last.toNat origin.toNat
  slice? content start (← addPlaces? last 1)

def overlap? (a : Exchange) (ca : Bytes) (b : Exchange) (cb : Bytes) :
    Option (Option (ByteRange × Bool)) :=
  match a.placement ca.length, b.placement cb.length with
  | some ra, some rb =>
    match ra.inter? rb with
    | some r => do return some (r, (← window? ca ra.first r) == (← window? cb rb.first r))
    | none => some none
  | _, _ => some none

namespace Capture

/-- The content of a capture, with every sum, every difference and every slice checked. -/
def content? (c : Completeness) (x : Capture) : Option (Except ContentError Bytes) :=
  if !x.exchange.extractable then some (.error .notExtractable)
  else do
    let unframed ← x.exchange.unframed? c (← x.exchange.rawBody? x.stream)
    return unframed.bind fun body =>
      if x.exchange.isGzip then (Gzip.decompress body).mapError (.decompressionFailure ·.message)
      else .ok body

def sameContent? (c : Completeness) (a b : Capture) : Option Bool := do
  match ← a.content? c, ← b.content? c with
  | .ok ca, .ok cb =>
    if areWhole a b then return ca == cb
    else return ((← overlap? a.exchange ca b.exchange cb).map (·.2)).getD false
  | _, _ => return false

def matchingRange? (c : Completeness) (a b : Capture) : Option (Option ByteRange) := do
  match ← a.content? c, ← b.content? c with
  | .ok ca, .ok cb =>
    if areWhole a b && ca != cb then return none
    else
      return (← overlap? a.exchange ca b.exchange cb).bind fun (r, same) =>
        if same then some r else none
  | _, _ => return none

end Capture

theorem slice?_eq {input : Bytes} {start stop : Nat} (h : start ≤ stop)
    (hstop : stop ≤ input.length) :
    slice? input start stop = some ((input.drop start).take (stop - start)) := if_pos ⟨h, hstop⟩

theorem Exchange.piece?_eq (stream : Bytes) {piece : Nat × Nat}
    (h : piece.1 + piece.2 < wordBound) :
    piece? stream piece = some ((stream.drop piece.1).take piece.2) := by
  obtain ⟨offset, length⟩ := piece
  have hstop : addPlaces? offset length = some (offset + length) := if_pos h
  simp only [piece?, hstop, Option.bind_eq_bind, Option.bind_some]
  split
  · next hlt =>
    rw [slice?_eq (Nat.le_of_lt hlt) (Nat.min_le_right _ _), Option.some.injEq,
      List.take_eq_take_iff, List.length_drop]
    omega
  · next hlt =>
    refine congrArg some (List.take_eq_nil_iff.mpr ?_).symm
    rw [List.drop_eq_nil_iff]
    omega

theorem Exchange.rawBody?_eq {stream : Bytes} {e : Exchange}
    (h : ∀ piece ∈ e.body, piece.1 + piece.2 < wordBound) :
    e.rawBody? stream = some (e.rawBody stream) := by
  rw [rawBody?, mapM_eq_some_map fun piece hpiece => piece?_eq stream (h piece hpiece)]
  rfl

theorem ChunksIn.collect?_eq {input : Bytes} {body : ChunkedBody} (h : ChunksIn input body.chunks)
    (hlen : input.length < wordBound) : body.collect? input = some body.data := by
  have hslice : ∀ chunk ∈ body.chunks,
      (addPlaces? chunk.offset chunk.data.length).bind (slice? input chunk.offset) =
        some chunk.data := by
    intro chunk hchunk
    have hinside := h.inside chunk hchunk
    rw [addPlaces?_eq hlen hinside, Option.bind_some,
      slice?_eq (Nat.le_add_right _ _) hinside, Nat.add_sub_cancel_left]
    exact congrArg some (List.prefix_iff_eq_take.mp (h.data chunk hchunk)).symm
  rw [ChunkedBody.collect?, mapM_eq_some_map hslice]
  rfl

theorem Exchange.unframed?_eq {c : Completeness} {e : Exchange} {raw : Bytes}
    (hlen : raw.length < wordBound) : e.unframed? c raw = some (e.unframed c raw) := by
  unfold unframed?
  split
  · next hchunked =>
    have hcollect := (chunksIn_bodyRead raw).collect?_eq hlen
    rw [decodePlaces?_eq hlen, unframed, if_pos hchunked, Option.bind_some]
    cases hread : decodeChunks raw with
    | ok body =>
      rw [hread] at hcollect
      exact congrArg (Option.map Except.ok) hcollect
    | error err =>
      rw [hread] at hcollect
      exact congrArg (Option.map (Except.error <| ContentError.chunkFramingCorrupt ·)) hcollect
  · rfl

theorem window?_eq {content : Bytes} {origin : UInt64} {r : ByteRange} (hr : r.isEmpty = false)
    (hfirst : origin.toNat ≤ r.first.toNat) (hlast : r.last.toNat < origin.toNat + content.length)
    (hlen : content.length < wordBound) :
    window? content origin r = some (window content origin r) := by
  rw [ByteRange.isEmpty_eq_false] at hr
  have hstop : addPlaces? (r.last.toNat - origin.toNat) 1 =
      some (r.last.toNat - origin.toNat + 1) :=
    addPlaces?_eq hlen (by omega)
  simp only [window?, subPlaces?_eq hfirst, subPlaces?_eq (Nat.le_trans hfirst hr), hstop,
    Option.bind_eq_bind, Option.bind_some]
  rw [slice?_eq (by omega) (by omega), window]
  congr 2
  omega

theorem overlap?_eq {a b : Exchange} {ca cb : Bytes} (ha : ca.length < wordBound)
    (hb : cb.length < wordBound) : overlap? a ca b cb = some (overlap a ca b cb) := by
  unfold overlap? overlap
  split
  · next ra rb hra hrb =>
    rw [hra, hrb]
    simp only [Option.bind_eq_bind, Option.bind_some]
    cases hinter : ra.inter? rb with
    | none => rfl
    | some r =>
      obtain ⟨hr, hmeet⟩ := ByteRange.inter?_eq_some_iff.mp hinter
      obtain ⟨hu, hv⟩ := ByteRange.first_le_of_inter? hinter
      have hlast := hmeet ▸ ByteRange.last_mem_positions hr
      obtain ⟨hlasta, hlastb⟩ := Finset.mem_inter.mp hlast
      rw [ByteRange.mem_positions] at hlasta hlastb
      have henda := (ByteRange.ofLength?_eq_some_iff.mp hra)
      have hendb := (ByteRange.ofLength?_eq_some_iff.mp hrb)
      rw [← henda.1] at henda
      rw [← hendb.1] at hendb
      dsimp only
      rw [window?_eq hr hu (by omega) ha, window?_eq hr hv (by omega) hb]
      rfl
  · next hno =>
    cases hra : a.placement ca.length with
    | none => rfl
    | some ra =>
      cases hrb : b.placement cb.length with
      | none => rfl
      | some rb => exact absurd hrb (hno ra rb hra)

namespace Capture

variable {c : Completeness} {a b x : Capture}

theorem Fits.content?_eq (h : x.Fits c) : x.content? c = some (x.content c) := by
  rw [Capture.content?, Capture.content, Exchange.content]
  split
  · rfl
  · rw [Exchange.rawBody?_eq h.pieces]
    simp only [Option.bind_eq_bind, Option.bind_some, Exchange.unframed?_eq h.body]
    cases x.exchange.unframed c (x.exchange.rawBody x.stream) <;> rfl

theorem sameContent?_eq (ha : a.Fits c) (hb : b.Fits c) :
    sameContent? c a b = some (sameContent c a b) := by
  rw [sameContent?, sameContent, ha.content?_eq, hb.content?_eq]
  cases hca : a.content c with
  | error => rfl
  | ok ca =>
    cases hcb : b.content c with
    | error => rfl
    | ok cb =>
      have hoverlap : overlap? a.exchange ca b.exchange cb = _ :=
        overlap?_eq (ha.content ca hca) (hb.content cb hcb)
      simp only [Option.bind_eq_bind, Option.bind_some, hoverlap, Option.pure_def]
      split <;> rfl

theorem matchingRange?_eq (ha : a.Fits c) (hb : b.Fits c) :
    matchingRange? c a b = some (matchingRange c a b) := by
  rw [matchingRange?, matchingRange, ha.content?_eq, hb.content?_eq]
  cases hca : a.content c with
  | error => rfl
  | ok ca =>
    cases hcb : b.content c with
    | error => rfl
    | ok cb =>
      have hoverlap : overlap? a.exchange ca b.exchange cb = _ :=
        overlap?_eq (ha.content ca hca) (hb.content cb hcb)
      simp only [Option.bind_eq_bind, Option.bind_some, hoverlap, Option.pure_def]
      split <;> rfl

end Capture

end Checked

/-- Two contents match on a range exactly if both can be had, it is what their places have in
common, and they are the same there; contents of whole objects have to be equal. They count as the
same if there is such a range, or if both are empty and whole. Neither answer depends on the order
of the two, and with every place checked the answers are the same. -/
theorem contents_match_where_they_agree {c : Completeness} {a b : Capture} (ha : a.Fits c)
    (hb : b.Fits c) :
    (∀ r, Capture.matchingRange c a b = some r ↔
      ∃ ca cb, a.content c = .ok ca ∧ b.content c = .ok cb ∧
        AgreeOn a.exchange ca b.exchange cb r ∧ (Capture.areWhole a b = true → ca = cb)) ∧
    (Capture.sameContent c a b = true ↔ (Capture.matchingRange c a b).isSome = true ∨
      (Capture.areWhole a b = true ∧ a.content c = .ok [] ∧ b.content c = .ok [])) ∧
    Capture.matchingRange c b a = Capture.matchingRange c a b ∧
    Capture.sameContent c b a = Capture.sameContent c a b ∧
    Capture.matchingRange? c a b = some (Capture.matchingRange c a b) ∧
    Capture.sameContent? c a b = some (Capture.sameContent c a b) :=
  ⟨fun _ => Capture.matchingRange_eq_some_iff ha hb, Capture.sameContent_iff ha hb,
    Capture.matchingRange_comm ha hb, Capture.sameContent_comm ha hb,
    Capture.matchingRange?_eq ha hb, Capture.sameContent?_eq ha hb⟩

/-- A whole object, and a part of it that was sent in chunks. -/
theorem contents_match_where_they_agree_of_part :
    let response := Exchange.start 0 .downlink (.response "HTTP/1.1" 200 "OK")
    let whole : Capture := ⟨utf8Bytes "0123456789", { response with body := [(0, 10)] }⟩
    let part : Capture := ⟨utf8Bytes "4\r\n3456\r\n0\r\n\r\n",
      { response with body := [(0, 14)], chunked := true, range := some ⟨3, 6⟩ }⟩
    whole.Fits .standard ∧ part.Fits .standard ∧
      Capture.matchingRange .standard whole part = some ⟨3, 6⟩ ∧
      AgreeOn whole.exchange (utf8Bytes "0123456789") part.exchange (utf8Bytes "3456") ⟨3, 6⟩ ∧
      Capture.sameContent .standard part whole = true := by
  intro response whole part
  have hcwhole : whole.content .standard = .ok (utf8Bytes "0123456789") := by decide +kernel
  have hcpart : part.content .standard = .ok (utf8Bytes "3456") := by decide +kernel
  have hwhole : whole.Fits .standard := .of_content (by decide) (by decide) hcwhole (by decide)
  have hpart : part.Fits .standard := .of_content (by decide) (by decide) hcpart (by decide)
  have hmatch : Capture.matchingRange .standard whole part = some ⟨3, 6⟩ := by decide +kernel
  obtain ⟨hrange, hsame, -, hcomm, -⟩ := contents_match_where_they_agree hwhole hpart
  obtain ⟨ca, cb, hca, hcb, hagree, -⟩ := (hrange ⟨3, 6⟩).mp hmatch
  obtain rfl := Except.ok.inj (hca.symm.trans hcwhole)
  obtain rfl := Except.ok.inj (hcb.symm.trans hcpart)
  exact ⟨hwhole, hpart, hmatch, hagree, hcomm.trans (hsame.mpr (.inl (by rw [hmatch]; rfl)))⟩

end HttpCapture
