import HttpCapture.Proofs.RecordRoundTrip

/-! A trace file is read line by line. What a line holds does not matter to the other lines, unless
it is no text at all: then nothing is read. -/

namespace HttpCapture

theorem splitAll_eq_splitOn {α : Type} [BEq α] (sep : α) (l : List α) :
    splitAll sep l = l.splitOn sep := by
  unfold splitAll
  induction l with
  | nil => rfl
  | cons a l ih =>
    rw [List.foldr_cons, ih, List.splitOn_cons_eq_if_modifyHead]
    cases hl : l.splitOn sep with
    | nil => exact absurd hl (List.splitOn_ne_nil _ _)
    | cons part rest => rfl

theorem mapM_option_eq {α β : Type} (f : α → Option β) (l : List α) :
    l.mapM f = if l.all fun a => (f a).isSome then some (l.filterMap f) else none := by
  induction l with
  | nil => rfl
  | cons a l ih =>
    rw [List.mapM_cons, ih]
    cases hfa : f a with
    | none => simp [hfa]
    | some b =>
      by_cases hall : (l.all fun a => (f a).isSome) = true
      · simp [hfa, hall]
      · simp [hfa, hall]

/-- The packet that the bytes of a line spell, if they are text and hold one. -/
def recordOf? (line : Bytes) : Option Packet := (utf8Text? line).bind Packet.ofLine?

def IsText (bs : Bytes) : Prop := (utf8Text? bs).isSome = true

instance (bs : Bytes) : Decidable (IsText bs) := inferInstanceAs (Decidable (_ = true))

theorem isText_utf8Bytes (s : String) : IsText (utf8Bytes s) := by
  rw [IsText, utf8Text?_utf8Bytes]
  rfl

theorem recordOf?_utf8Bytes (s : String) : recordOf? (utf8Bytes s) = Packet.ofLine? s := by
  rw [recordOf?, utf8Text?_utf8Bytes, Option.bind_some]

theorem readTrace_of_isText {file : Bytes} (h : ∀ line ∈ file.splitOn lineFeed, IsText line) :
    readTrace file = .ok ((file.splitOn lineFeed).filterMap recordOf?) := by
  have hall : (file.splitOn lineFeed).all (fun line => (utf8Text? line).isSome) = true :=
    List.all_eq_true.mpr h
  rw [readTrace, splitAll_eq_splitOn, mapM_option_eq, if_pos hall]
  dsimp only
  rw [List.filterMap_filterMap]
  rfl

theorem readTrace_of_not_isText {file line : Bytes} (hline : line ∈ file.splitOn lineFeed)
    (h : ¬IsText line) : readTrace file = .error .notText := by
  have hall : ¬(file.splitOn lineFeed).all (fun line => (utf8Text? line).isSome) = true :=
    fun hall => h (List.all_eq_true.mp hall line hline)
  rw [readTrace, splitAll_eq_splitOn, mapM_option_eq, if_neg hall]

/-- The packets of a file are those of its lines that hold one, just when every line is text. -/
theorem loadTrace_eq_records_iff (file : Bytes) :
    loadTrace (some file) = .ok ((file.splitOn lineFeed).filterMap recordOf?) ↔
      ∀ line ∈ file.splitOn lineFeed, IsText line := by
  constructor
  · intro hload line hline
    refine Decidable.byContradiction fun hnot => ?_
    rw [loadTrace, readTrace_of_not_isText hline hnot] at hload
    exact absurd hload (by simp)
  · exact readTrace_of_isText

/-- A datagram with the answer of a name server. -/
def Packet.sampleDatagram : Packet where
  timestamp := ⟨0x3ff8000000000000⟩
  direction := .downlink
  localAddr := .v4 10 0 0 2
  localPort := 40000
  remoteAddr := .v6 ⟨#[0x2001, 0xdb8, 0, 0, 0, 0, 0, 1], rfl⟩
  remotePort := 53
  transport := .udp
  payload := [0, 255]
  tlsRecord := none
  dns := some ⟨"b\u00fccher\n.example", [.v4 93 184 216 34]⟩
  decrypted := false

theorem readsBack_sampleDatagram : Packet.sampleDatagram.timestamp.ReadsBack :=
  ⟨⟨false, ['1'], some ['5'], none⟩, by decide +kernel, by decide +kernel⟩

/-- Two records are lost for a byte between them that is no text. -/
theorem loadTrace_of_stray_byte :
    let line := utf8Bytes Packet.sampleDatagram.toJson.compact
    let file := line ++ [lineFeed, 0xff, lineFeed] ++ line ++ [lineFeed]
    (file.splitOn lineFeed).filterMap recordOf? = [.sampleDatagram, .sampleDatagram] ∧
      loadTrace (some file) ≠ .ok ((file.splitOn lineFeed).filterMap recordOf?) := by
  intro line file
  have hline : recordOf? line = some .sampleDatagram :=
    (recordOf?_utf8Bytes _).trans (Packet.ofLine?_compact readsBack_sampleDatagram)
  have hstray : recordOf? [0xff] = none := by decide +kernel
  have hempty : recordOf? [] = none := by decide +kernel
  have hfree : lineFeed ∉ line := lineFeed_not_mem_utf8Bytes (Json.newline_not_mem_compact _)
  have hsplit : file.splitOn lineFeed = [line, [0xff], line, []] := by
    have hfile : file = line ++ lineFeed :: ([0xff] ++ lineFeed :: (line ++ lineFeed :: [])) := by
      simp [file]
    rw [hfile, List.splitOn_append_cons_self_of_not_mem hfree,
      List.splitOn_append_cons_self_of_not_mem (by decide),
      List.splitOn_append_cons_self_of_not_mem hfree, List.splitOn_nil]
  have hmem : [0xff] ∈ file.splitOn lineFeed := by simp [hsplit]
  refine ⟨by simp [hsplit, hline, hstray, hempty], fun hload => ?_⟩
  rw [loadTrace, readTrace_of_not_isText hmem (by decide +kernel)] at hload
  exact absurd hload (by simp)

end HttpCapture
