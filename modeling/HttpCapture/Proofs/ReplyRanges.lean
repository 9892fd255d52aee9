import HttpCapture.Proofs.MessageSizes
import HttpCapture.Proofs.ReplyOrder
import HttpCapture.Proofs.RepeatedBytes

/-! The ranges of objects that responses carry. Each is read from the field of a partial response
and has as many positions as the body is declared to have bytes. None is empty, and none has more
positions than a 64-bit number can count. -/

namespace HttpCapture

theorem readDigits_lt {acc n : Nat} {s : List Char} (hacc : acc < wordBound)
    (h : readDigits acc s = .ok n) : n < wordBound := by
  induction s generalizing acc with
  | nil =>
    obtain rfl := Except.ok.inj h
    exact hacc
  | cons c s ih =>
    unfold readDigits at h
    split at h
    · dsimp only at h
      split at h
      · next hnext => exact ih hnext h
      · cases h
    · cases h

theorem readUnsigned_lt {n : Nat} {s : List Char} (h : readUnsigned s = .ok n) : n < wordBound := by
  have hzero : 0 < wordBound := by decide
  unfold readUnsigned at h
  split at h
  · cases h
  · cases h
  · exact readDigits_lt hzero h
  · exact readDigits_lt hzero h

theorem eq_ok_of_mapError {ε ε' α : Type} {f : ε → ε'} {x : Except ε α} {a : α}
    (h : x.mapError f = .ok a) : x = .ok a := by
  cases x with
  | error => cases h
  | ok b => exact congrArg _ (Except.ok.inj h)

theorem readPositions_eq_ok {s : List Char} {first last : Nat}
    (h : readPositions s = .ok (first, last)) : first ≤ last ∧ last < wordBound := by
  simp only [readPositions, bind, Except.bind, pure, Except.pure, throw, throwThe,
    MonadExceptOf.throw] at h
  split at h
  · split at h
    · cases h
    · split at h
      · cases h
      · split at h
        · cases h
        · next l hlast =>
          split at h
          · cases h
          · next hordered =>
            obtain ⟨rfl, rfl⟩ := Prod.mk.inj (Except.ok.inj h)
            exact ⟨Nat.not_lt.mp hordered, readUnsigned_lt (eq_ok_of_mapError hlast)⟩
  · cases h

theorem ContentRange.read_eq_satisfied {s : List Char} {first last : Nat}
    {instanceLength : Option Nat} (h : read s = .ok (.satisfied first last instanceLength)) :
    first ≤ last ∧ last < wordBound := by
  simp only [read, bind, Except.bind, pure, Except.pure, throw, throwThe,
    MonadExceptOf.throw] at h
  split at h
  · cases h
  split at h
  · cases h
  split at h
  · split at h
    · split at h
      · split at h
        · cases h
        · split at h <;> cases h
      · split at h
        · cases h
        · next v hpositions =>
          split at h
          · cases h
          · cases h
            exact readPositions_eq_ok hpositions
    · cases h
  · cases h

/-- A range with as many positions as its length tells, and at least one. -/
def ByteRange.Countable (r : ByteRange) : Prop := r.isEmpty = false ∧ r.positions.card < 2 ^ 64

theorem ByteRange.countable_of_ofLength? {first : UInt64} {length : Nat} {r : ByteRange}
    (h : ofLength? first length = some r) : r.Countable := by
  obtain ⟨hfirst, hlast, hpos, hlt⟩ := ofLength?_eq_some h
  refine ⟨?_, ?_⟩
  · rw [isEmpty_eq_false, hlast, hfirst]
    omega
  · rw [positions, Nat.card_Icc, hlast, hfirst]
    omega

namespace Exchange

/-- A range that a partial response carries, as its field gives it. -/
structure RangeFits (e : Exchange) (range : ByteRange) : Prop where
  status : e.status? = some 206
  ordered : range.first.toNat ≤ range.last.toNat
  counted : range.last.toNat - range.first.toNat + 1 < 2 ^ 64
  declared : ∀ n ∈ e.contentLength, n = range.last.toNat - range.first.toNat + 1
  told : ∃ text, e.header? "content-range" = some text ∧ ContentRange.read text.toList =
    .ok (.satisfied range.first.toNat range.last.toNat e.instanceLength)

theorem RangeFits.countable {e : Exchange} {range : ByteRange} (h : e.RangeFits range) :
    range.Countable := by
  have hordered := h.ordered
  refine ⟨ByteRange.isEmpty_eq_false.mpr hordered, ?_⟩
  rw [ByteRange.positions, Nat.card_Icc, Nat.sub_add_comm hordered]
  exact h.counted

/-- The range that an exchange has is the one that its fields give, if it has one. -/
def RangeRead (e : Exchange) : Prop := ∀ range ∈ e.range, e.RangeFits range

theorem RangeRead.congr {e f : Exchange} (h : e.RangeRead) (hline : f.startLine = e.startLine)
    (hfields : f.fields = e.fields) (hdeclared : f.contentLength = e.contentLength)
    (hrange : f.range = e.range) (hlength : f.instanceLength = e.instanceLength) : f.RangeRead := by
  intro range hmem
  obtain ⟨hstatus, hordered, hcounted, hfits, htold⟩ := h range (hrange ▸ hmem)
  exact ⟨by rwa [status?, hline], hordered, hcounted, by rwa [hdeclared],
    by rwa [header?, hfields, hlength]⟩

theorem rangeRead_of_range_eq_none {e : Exchange} (h : e.range = none) : e.RangeRead := by
  intro range hmem
  rw [h] at hmem
  cases hmem

theorem rangeFits_of_partialRange? {e : Exchange} {range : ByteRange} {instanceLength : Option Nat}
    (h : e.partialRange? = some (range, instanceLength)) :
    { e with range := some range, instanceLength := instanceLength }.RangeFits range := by
  unfold partialRange? at h
  split at h
  · next hstatus =>
    split at h
    · next first last _ hread =>
      dsimp only at h
      split at h
      · next hfits =>
        obtain ⟨rfl, rfl⟩ := Prod.mk.inj (Option.some.inj h)
        obtain ⟨text, htext, hs⟩ := Option.map_eq_some_iff.mp hread
        obtain ⟨hle, hlast⟩ := ContentRange.read_eq_satisfied hs
        have hfirst' : (UInt64.ofNat first).toNat = first :=
          UInt64.toNat_ofNat_of_lt' (Nat.lt_of_le_of_lt hle hlast)
        have hlast' : (UInt64.ofNat last).toNat = last := UInt64.toNat_ofNat_of_lt' hlast
        constructor
        · exact hstatus
        · rwa [hfirst', hlast']
        · rw [hfirst', hlast']
          exact hfits.1
        · intro n hn
          rw [hfirst', hlast']
          simpa [show e.contentLength = some n from hn] using hfits.2
        · rw [hfirst', hlast']
          exact ⟨text, htext, hs⟩
      · cases h
    · cases h
  · cases h

theorem rangeRead_readFields {e : Exchange} (h : e.range = none) : e.readFields.RangeRead := by
  unfold Exchange.readFields
  dsimp only
  split
  · next hpart =>
    intro range hmem
    obtain rfl := Option.some.inj hmem
    exact rangeFits_of_partialRange? hpart
  · exact rangeRead_of_range_eq_none h

end Exchange

namespace Reading

theorem rangeRead_checkContent (r : Reading) {e : Exchange} (h : e.RangeRead) :
    (r.checkContent e).RangeRead := by
  rcases r.checkContent_eq e with heq | ⟨reason, heq⟩ <;> rw [heq]
  · exact h
  · exact h.congr rfl rfl rfl rfl rfl

theorem rangeRead_readBody (r : Reading) {e : Exchange} (h : e.readFields.RangeRead) (start : Nat)
    (bs : Bytes) (answersHead : Bool) : (r.readBody e start bs answersHead).1.RangeRead := by
  obtain ⟨_, _, _, heq⟩ := r.exists_readBody_eq e start bs answersHead
  rw [heq]
  exact h.congr rfl rfl rfl rfl rfl

theorem rangeRead_locate (r : Reading) {e : Exchange} (h : e.RangeRead) (start size : Nat) :
    (r.locate e start size).RangeRead :=
  h.congr rfl rfl rfl rfl rfl

theorem rangeRead_wholeMessage (r : Reading) (pos headSize : Nat) (startLine : StartLine)
    (fields : Fields) (bs : Bytes) (answersHead : Bool) :
    (r.wholeMessage pos headSize startLine fields bs answersHead).1.RangeRead := by
  have hbody := r.rangeRead_readBody (e := { r.begin pos startLine with
    fields := fields, headLength := headSize }) (Exchange.rangeRead_readFields rfl) (pos + headSize)
      bs answersHead
  exact r.rangeRead_checkContent (r.rangeRead_locate hbody _ _)

theorem rangeRead_cutMessage (r : Reading) (pos available : Nat) (startLine : StartLine)
    (fields : Fields) : (r.cutMessage pos available startLine fields).RangeRead :=
  r.rangeRead_checkContent (Exchange.rangeRead_of_range_eq_none rfl)

theorem rangeRead_messages (r : Reading) (methods : List String) :
    ∀ e ∈ r.messages methods, e.RangeRead :=
  (r.cuts_messages methods).forall_mem r.rangeRead_cutMessage r.rangeRead_wholeMessage

end Reading

namespace Session

theorem rangeRead_of_mem_listExchanges {es : List Exchange} (h : ∀ e ∈ es, e.RangeRead) :
    ∀ e ∈ listExchanges es, e.RangeRead := by
  intro e he
  obtain ⟨i, hi⟩ := List.mem_iff_getElem?.mp he
  rw [getElem?_listExchanges] at hi
  obtain ⟨found, hfound, rfl⟩ := Option.map_eq_some_iff.mp hi
  obtain ⟨_, _, heq⟩ := Exchange.pairBy_eq (answers [] 0 es) { found with index := i } i
  rw [heq]
  exact (h found (List.mem_of_getElem? hfound)).congr rfl rfl rfl rfl rfl

theorem rangeRead_of_mem_reassemble (s : Session) (limits : ReadingLimits) (sessionIndex : Nat) :
    ∀ e ∈ (s.reassemble limits sessionIndex).exchanges, e.RangeRead := by
  rw [exchanges_reassemble]
  split
  · simp
  · refine rangeRead_of_mem_listExchanges fun e he => ?_
    have he := (List.mergeSort_perm _ _).mem_iff.mp he
    split at he
    · obtain ⟨run, -, rfl⟩ := List.mem_map.mp he
      exact Exchange.rangeRead_of_range_eq_none rfl
    · rcases List.mem_append.mp he with he | he
      · exact Reading.rangeRead_messages _ _ e he
      · exact Reading.rangeRead_messages _ _ e he

end Session

theorem rangeRead_of_mem_repliesOf {ts : List (Session × ReadingLimits × Nat)} {r : Reply}
    (hr : r ∈ repliesOf (Session.reassembleEach ts)) : r.response.RangeRead := by
  obtain ⟨s, i, hs, hr⟩ := mem_unsortedReplies.mp ((repliesOf_perm _).mem_iff.mp hr)
  obtain ⟨e, he, rfl⟩ := List.mem_map.mp hr
  obtain ⟨⟨t, limits, sessionIndex⟩, -, rfl⟩ := List.mem_map.mp (List.mem_of_getElem? hs)
  exact t.rangeRead_of_mem_reassemble limits sessionIndex e (List.mem_filter.mp he).1

theorem countable_of_mem_repliesOf {ts : List (Session × ReadingLimits × Nat)} {r : Reply}
    (hr : r ∈ repliesOf (Session.reassembleEach ts)) (c : Completeness) :
    ∀ range ∈ r.objectRange c, range.Countable := by
  have hread := rangeRead_of_mem_repliesOf hr
  intro range hmem
  rw [Reply.objectRange] at hmem
  cases hpart : r.response.range with
  | some part =>
    rw [hpart] at hmem
    exact (hread range (hpart.trans hmem)).countable
  | none =>
    rw [hpart] at hmem
    obtain ⟨n, -, hn⟩ := Option.bind_eq_some_iff.mp hmem
    exact ByteRange.countable_of_ofLength? hn

end HttpCapture
