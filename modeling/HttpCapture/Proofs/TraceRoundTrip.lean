import HttpCapture.Proofs.TraceLines
import Mathlib.Data.List.Induction

/-! What was written to a trace is read from it. Each batch goes to the end of the file, and lines
that hold no packet may stand anywhere between the others. -/

namespace HttpCapture

/-- Blank text and text that is no record. -/
def IsSkipped (text : String) : Prop :=
  (∀ c ∈ text.toList, isBlank c = true) ∨ Packet.ofLine? text = none

/-- All lines of a file are ended. -/
def EndsLine (file : Bytes) : Prop := file = [] ∨ file.getLast? = some lineFeed

/-- A file that packets were written to, one batch after the other, and that
other lines were put into. -/
inductive TraceFile : List Packet → Bytes → Prop
  | empty : TraceFile [] []
  | append {ps : List Packet} {file : Bytes} (h : TraceFile ps file) (batch : List Packet) :
      TraceFile (ps ++ batch) (appendTrace file batch)
  | insert {ps : List Packet} {before after : Bytes} (h : TraceFile ps (before ++ after))
      (hbefore : EndsLine before) {text : String} (hline : '\n' ∉ text.toList)
      (hskip : IsSkipped text) :
      TraceFile ps (before ++ utf8Bytes (text ++ "\n") ++ after)

/-- Batches that were written to an empty file. -/
theorem traceFile_foldl (batches : List (List Packet)) :
    TraceFile batches.flatten (batches.foldl appendTrace []) := by
  induction batches using List.reverseRecOn with
  | nil => exact .empty
  | append_singleton batches batch ih => simpa using ih.append batch

theorem isBlank_of_isDigit {c : Char} (h : c.isDigit = true) : isBlank c = false := by
  have hrange : 48 ≤ c.toNat ∧ c.toNat ≤ 57 := Char.isDigit_iff_toNat.mp h
  simp [isBlank]
  omega

theorem NumberText.read?_of_blank {s : List Char} (h : ∀ c ∈ s, isBlank c = true) :
    read? s = none := by
  cases hread : read? s with
  | none => rfl
  | some result =>
    obtain ⟨c, s', rfl, hc⟩ := exists_head_of_read? hread
    have hblank := h c List.mem_cons_self
    rcases hc with rfl | hdigit
    · exact absurd hblank (by decide)
    · exact absurd hblank (by simp [isBlank_of_isDigit hdigit])

theorem JsonTree.read?_of_blank {s : List Char} (h : ∀ c ∈ s, isBlank c = true) (fuel : Nat) :
    read? fuel s = none := by
  have hall : ∀ c ∈ skipSpace s, isBlank c = true :=
    fun c hc => h c ((List.dropWhile_sublist _).subset hc)
  cases fuel with
  | zero => rfl
  | succ fuel =>
    have hnot : ∀ c s', isBlank c = false → skipSpace s ≠ c :: s' :=
      fun c s' hc heq => by simp [heq, hc] at hall
    unfold read?
    split
    case h_7 => rw [NumberText.read?_of_blank hall, Option.map_none]
    all_goals exact absurd ‹skipSpace s = _› (hnot _ _ (by decide))

theorem IsSkipped.ofLine? {text : String} (h : IsSkipped text) : Packet.ofLine? text = none := by
  rcases h with hblank | hnone
  · simp [Packet.ofLine?, JsonTree.ofText?, JsonTree.read?_of_blank hblank]
  · exact hnone

theorem utf8Bytes_append_newline (s : String) :
    utf8Bytes (s ++ "\n") = utf8Bytes s ++ [lineFeed] := by
  rw [utf8Bytes_eq_flatMap, utf8Bytes_eq_flatMap, String.toList_append, List.flatMap_append]
  rfl

theorem EndsLine.append {front back : Bytes} (hfront : EndsLine front) (hback : EndsLine back) :
    EndsLine (front ++ back) := by
  rcases hback with rfl | hlast
  · rwa [List.append_nil]
  · right
    rw [List.getLast?_append, hlast, Option.some_or]

theorem EndsLine.of_append {front back : Bytes} (h : EndsLine (front ++ back)) : EndsLine back := by
  rcases h with hnil | hlast
  · exact .inl (List.append_eq_nil_iff.mp hnil).2
  · cases hback : back.getLast? with
    | none => exact .inl (List.getLast?_eq_none_iff.mp hback)
    | some b =>
      rw [List.getLast?_append, hback, Option.some_or] at hlast
      exact .inr (hback.trans hlast)

theorem endsLine_line (text : String) : EndsLine (utf8Bytes (text ++ "\n")) := by
  right
  rw [utf8Bytes_append_newline, List.getLast?_concat]

theorem endsLine_batch (batch : List Packet) :
    EndsLine (batch.flatMap fun p => utf8Bytes p.line) := by
  induction batch with
  | nil => exact .inl rfl
  | cons p batch ih => exact (endsLine_line _).append ih

/-- The lines of a file that all are ended stay what they are when something is added to the
file. -/
theorem EndsLine.exists_lines {file : Bytes} (h : EndsLine file) :
    ∃ lines, ∀ rest, (file ++ rest).splitOn lineFeed = lines ++ rest.splitOn lineFeed := by
  rcases h with rfl | hlast
  · exact ⟨[], fun rest => rfl⟩
  · obtain ⟨front, rfl⟩ := List.getLast?_eq_some_iff.mp hlast
    refine ⟨front.splitOn lineFeed, fun rest => ?_⟩
    rw [List.append_assoc, List.singleton_append, List.splitOn_append_cons_self]

theorem splitOn_line {text : String} (h : '\n' ∉ text.toList) (rest : Bytes) :
    (utf8Bytes (text ++ "\n") ++ rest).splitOn lineFeed =
      utf8Bytes text :: rest.splitOn lineFeed := by
  rw [utf8Bytes_append_newline, List.append_assoc, List.singleton_append,
    List.splitOn_append_cons_self_of_not_mem (lineFeed_not_mem_utf8Bytes h)]

theorem splitOn_batch (batch : List Packet) :
    (batch.flatMap fun p => utf8Bytes p.line).splitOn lineFeed =
      batch.map (fun p => utf8Bytes p.toJson.compact) ++ [[]] := by
  induction batch with
  | nil => simp
  | cons p batch ih =>
    rw [List.flatMap_cons, Packet.line, splitOn_line (Json.newline_not_mem_compact _), ih]
    rfl

theorem recordOf?_nil : recordOf? [] = none := by decide +kernel

theorem isText_nil : IsText [] := by decide +kernel

/-- What is read from a file of which all lines are ended: without that, what is added to the file
would go on with its last line. -/
structure Holds (file : Bytes) (ps : List Packet) : Prop where
  ended : EndsLine file
  isText : ∀ line ∈ file.splitOn lineFeed, IsText line
  records : (file.splitOn lineFeed).filterMap recordOf? = ps

namespace Holds

variable {file : Bytes} {ps : List Packet}

theorem empty : Holds [] [] :=
  ⟨.inl rfl, by simpa using isText_nil, by simp [recordOf?_nil]⟩

theorem append (h : Holds file ps) {batch : List Packet}
    (hbatch : ∀ p ∈ batch, p.timestamp.ReadsBack) :
    Holds (appendTrace file batch) (ps ++ batch) := by
  obtain ⟨lines, hlines⟩ := h.ended.exists_lines
  have hold : file.splitOn lineFeed = lines ++ [[]] := by simpa using hlines []
  have hnew : (appendTrace file batch).splitOn lineFeed =
      lines ++ (batch.map (fun p => utf8Bytes p.toJson.compact) ++ [[]]) := by
    rw [appendTrace, hlines, splitOn_batch]
  have hread : (batch.map fun p => utf8Bytes p.toJson.compact).filterMap recordOf? = batch := by
    have hrecord : ∀ p ∈ batch, (recordOf? ∘ fun p => utf8Bytes p.toJson.compact) p = some p :=
      fun p hp => (recordOf?_utf8Bytes _).trans (Packet.ofLine?_compact (hbatch p hp))
    rw [List.filterMap_map, List.filterMap_congr hrecord, List.filterMap_some]
  have hps : lines.filterMap recordOf? = ps := by
    simpa [hold, recordOf?_nil] using h.records
  refine ⟨h.ended.append (endsLine_batch batch), fun line hline => ?_, ?_⟩
  · rw [hnew] at hline
    rcases List.mem_append.mp hline with hline | hline
    · exact h.isText line (by rw [hold]; exact List.mem_append_left _ hline)
    · rcases List.mem_append.mp hline with hline | hline
      · obtain ⟨p, -, rfl⟩ := List.mem_map.mp hline
        exact isText_utf8Bytes _
      · exact List.mem_singleton.mp hline ▸ isText_nil
  · simp [hnew, hread, hps, recordOf?_nil]

theorem insert {before after : Bytes} (h : Holds (before ++ after) ps) (hbefore : EndsLine before)
    {text : String} (hline : '\n' ∉ text.toList) (hskip : IsSkipped text) :
    Holds (before ++ utf8Bytes (text ++ "\n") ++ after) ps := by
  obtain ⟨lines, hlines⟩ := hbefore.exists_lines
  have hnew : (before ++ utf8Bytes (text ++ "\n") ++ after).splitOn lineFeed =
      lines ++ utf8Bytes text :: after.splitOn lineFeed := by
    rw [List.append_assoc, hlines, splitOn_line hline]
  have hnone : recordOf? (utf8Bytes text) = none := by
    rw [recordOf?_utf8Bytes, hskip.ofLine?]
  refine ⟨(hbefore.append (endsLine_line text)).append h.ended.of_append, fun line hmem => ?_, ?_⟩
  · rw [hnew, List.mem_append, List.mem_cons] at hmem
    rcases hmem with hmem | rfl | hmem
    · exact h.isText line (by rw [hlines]; exact List.mem_append_left _ hmem)
    · exact isText_utf8Bytes text
    · exact h.isText line (by rw [hlines]; exact List.mem_append_right _ hmem)
  · rw [hnew, List.filterMap_append, List.filterMap_cons_none hnone,
      ← List.filterMap_append, ← hlines]
    exact h.records

end Holds

/-- The packets that were written to a trace are read from it, all of them and in that order. -/
theorem loadTrace_of_traceFile {ps : List Packet} {file : Bytes} (h : TraceFile ps file)
    (hfinite : ∀ p ∈ ps, p.timestamp.IsFinite)
    (hprinted : ∀ p ∈ ps, p.timestamp.IsFinite → p.timestamp.ReadsBack) :
    loadTrace (some file) = .ok ps := by
  have hback : ∀ p ∈ ps, p.timestamp.ReadsBack := fun p hp => hprinted p hp (hfinite p hp)
  have hholds : Holds file ps := by
    clear hfinite hprinted
    induction h with
    | empty => exact .empty
    | append _ batch ih =>
      exact (ih fun p hp => hback p (List.mem_append_left _ hp)).append
        fun p hp => hback p (List.mem_append_right _ hp)
    | insert _ hbefore hline hskip ih => exact (ih hback).insert hbefore hline hskip
  exact (readTrace_of_isText hholds.isText).trans (congrArg _ hholds.records)

/-- Between the two packets stand a blank line and one that is cut. -/
theorem loadTrace_of_traceFile_two_batches :
    let segment : Packet := { Packet.sampleDatagram with
      timestamp := ⟨0x3fb999999999999a⟩
      direction := .unknown
      transport := .tcp ⟨4294967295, 7, ⟨true, true, false, false, true, false⟩, 65535⟩
      payload := []
      tlsRecord := some .handshake
      dns := none }
    let file := appendTrace [] [.sampleDatagram] ++ utf8Bytes ("\u00a0\r" ++ "\n") ++
      utf8Bytes ("[1" ++ "\n") ++ utf8Bytes segment.line
    TraceFile [.sampleDatagram, segment] file ∧
      loadTrace (some file) = .ok [.sampleDatagram, segment] := by
  intro segment file
  have hbatches : TraceFile [.sampleDatagram, segment]
      (appendTrace [] [.sampleDatagram] ++ utf8Bytes segment.line) := by
    simpa [appendTrace] using traceFile_foldl [[.sampleDatagram], [segment]]
  have hended : EndsLine (appendTrace [] [.sampleDatagram]) :=
    EndsLine.append (.inl rfl) (endsLine_batch [.sampleDatagram])
  have hblank : '\n' ∉ "\u00a0\r".toList ∧ IsSkipped "\u00a0\r" :=
    ⟨by decide, .inl (by simp [isBlank])⟩
  have hbroken : '\n' ∉ "[1".toList ∧ IsSkipped "[1" := ⟨by decide, .inr (by decide +kernel)⟩
  have hfile : TraceFile [.sampleDatagram, segment] file :=
    (hbatches.insert hended hblank.1 hblank.2).insert (hended.append (endsLine_line _)) hbroken.1
      hbroken.2
  have htenth : segment.timestamp.ReadsBack :=
    ⟨⟨false, ['0'], some ['1'], none⟩, by decide +kernel, by decide +kernel⟩
  have hfinite : Packet.sampleDatagram.timestamp.IsFinite ∧ segment.timestamp.IsFinite := by decide
  exact ⟨hfile, loadTrace_of_traceFile hfile (by simp [hfinite])
    (by simp [htenth, readsBack_sampleDatagram])⟩

end HttpCapture
