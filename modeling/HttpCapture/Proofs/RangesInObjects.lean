import HttpCapture.Proofs.ReplyRanges

/-! Ranges inside their objects. A range is taken from a partial response when its text can be read
and agrees with the declared length of the body. The object length in the same text is taken as it
is, so the range ends inside the object just when the text says so itself. -/

namespace HttpCapture

/-- The object length that a text gives, if it gives one, lies behind the last
position that it gives. -/
def ContentRange.EndsInside (text : String) : Prop :=
  ∀ first last n, read text.toList = .ok (.satisfied first last (some n)) → last < n

theorem ByteRange.length_of_lt {range : ByteRange}
    (h : range.last.toNat - range.first.toNat + 1 < 2 ^ 64) :
    range.length = range.last.toNat - range.first.toNat + 1 := by
  unfold length
  omega

namespace Exchange

theorem RangeFits.lt_instanceLength_iff {e : Exchange} {range : ByteRange} (h : e.RangeFits range)
    {text : String} (htext : e.header? "content-range" = some text) :
    (∀ n ∈ e.instanceLength, range.last.toNat < n) ↔ ContentRange.EndsInside text := by
  obtain ⟨told, htold, hread⟩ := h.told
  obtain rfl := Option.some.inj (htold.symm.trans htext)
  constructor
  · intro hinside first last n hfound
    obtain ⟨-, rfl, hlength⟩ := ContentRange.satisfied.inj (Except.ok.inj (hread.symm.trans hfound))
    exact hinside n hlength
  · intro hends n hn
    rw [show e.instanceLength = some n from hn] at hread
    exact hends _ _ n hread

end Exchange

/-- An exchange with a range is a partial response whose range is not empty, can be counted in 64
bits and has the declared length, and it lies inside the object just when its text says so. -/
theorem range_inside_object_iff (s : Session) (limits : ReadingLimits) (sessionIndex : Nat)
    {e : Exchange} (he : e ∈ (s.reassemble limits sessionIndex).exchanges) {range : ByteRange}
    (hrange : e.range = some range) :
    e.isResponse = true ∧ e.status? = some 206 ∧ range.first ≤ range.last ∧
      range.last.toNat - range.first.toNat + 1 < 2 ^ 64 ∧
      (∀ n ∈ e.contentLength, n = range.length) ∧
      ∃ text, e.header? "content-range" = some text ∧
        ContentRange.read text.toList =
          .ok (.satisfied range.first.toNat range.last.toNat e.instanceLength) ∧
        ((∀ n ∈ e.instanceLength, range.last.toNat < n) ↔ ContentRange.EndsInside text) := by
  have hfits := s.rangeRead_of_mem_reassemble limits sessionIndex e he range hrange
  obtain ⟨text, htext, hread⟩ := hfits.told
  have hresponse : e.isResponse = true := by
    have hstatus := hfits.status
    unfold Exchange.status? at hstatus
    unfold Exchange.isResponse
    split at hstatus <;> simp_all
  refine ⟨hresponse, hfits.status, UInt64.le_iff_toNat_le.mpr hfits.ordered, hfits.counted, ?_,
    text, htext, hread, hfits.lt_instanceLength_iff htext⟩
  rw [ByteRange.length_of_lt hfits.counted]
  exact hfits.declared

/-- A request and a partial response to it, whose body has five bytes. -/
def sampleFetchOfPart (range : String) : Session :=
  sampleConversation ["HTTP/1.1 206 Partial Content\r\nContent-Range: bytes " ++ range ++
    "\r\nContent-Length: 5\r\n\r\nabcde"]

theorem range_inside_object_iff_of_part :
    ∃ e ∈ ((sampleFetchOfPart "10-14/100").reassemble ⟨.standard, 200⟩ 0).exchanges,
      e.range = some ⟨10, 14⟩ ∧ e.isResponse = true ∧
        e.contentLength = some (ByteRange.length ⟨10, 14⟩) ∧ e.instanceLength = some 100 ∧
        ∃ text, e.header? "content-range" = some text ∧ ContentRange.EndsInside text := by
  have hexchanges : (((sampleFetchOfPart "10-14/100").reassemble ⟨.standard, 200⟩ 0).exchanges.map
      fun e => (e.range, e.contentLength, e.instanceLength)) =
        [(none, none, none), (some ⟨10, 14⟩, some 5, some 100)] := by
    rw [Session.reassemble_of_sorted (by decide) (by decide) (by decide +kernel)]
    decide +kernel
  obtain ⟨e, he, hfields⟩ :=
    List.mem_map.mp (hexchanges ▸ List.mem_cons_of_mem _ List.mem_cons_self)
  simp only [Prod.mk.injEq] at hfields
  obtain ⟨hrange, hdeclared, hlength⟩ := hfields
  obtain ⟨hresponse, -, -, -, -, text, htext, -, hinside⟩ := range_inside_object_iff _ _ _ he hrange
  refine ⟨e, he, hrange, hresponse, hdeclared, hlength, text, htext, hinside.mp fun n hn => ?_⟩
  obtain rfl := Option.some.inj (hlength.symm.trans hn)
  decide

/-- A range behind the end of an object of three bytes. -/
theorem range_outside_object :
    ∃ e ∈ ((sampleFetchOfPart "5-9/3").reassemble ⟨.standard, 200⟩ 0).exchanges,
      e.status? = some 206 ∧ e.range = some ⟨5, 9⟩ ∧ e.contentLength = some 5 ∧
        e.instanceLength = some 3 ∧
        ¬∀ range ∈ e.range, ∀ n ∈ e.instanceLength, range.last.toNat < n := by
  have hexchanges : (((sampleFetchOfPart "5-9/3").reassemble ⟨.standard, 200⟩ 0).exchanges.map
      fun e => (e.status?, e.range, e.contentLength, e.instanceLength)) =
        [(none, none, none, none), (some 206, some ⟨5, 9⟩, some 5, some 3)] := by
    rw [Session.reassemble_of_sorted (by decide) (by decide) (by decide +kernel)]
    decide +kernel
  obtain ⟨e, he, hfields⟩ :=
    List.mem_map.mp (hexchanges ▸ List.mem_cons_of_mem _ List.mem_cons_self)
  simp only [Prod.mk.injEq] at hfields
  obtain ⟨hstatus, hrange, hdeclared, hlength⟩ := hfields
  refine ⟨e, he, hstatus, hrange, hdeclared, hlength, fun hinside => ?_⟩
  exact absurd (hinside _ hrange _ hlength) (by decide)

end HttpCapture
