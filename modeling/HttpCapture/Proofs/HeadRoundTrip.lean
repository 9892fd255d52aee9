import HttpCapture.Http.Head
import HttpCapture.Proofs.WrittenText

/-! Heads as they are written, and that they are read back: a start line, header lines whose values
may stand between blanks, and an empty line. -/

namespace HttpCapture

theorem not_mem_of_isToken {s : String} (h : isToken (utf8Bytes s) = true) {c : Char} {b : UInt8}
    (hc : b ∈ String.utf8EncodeChar c) (hb : isTokenByte b = false) : c ∉ s.toList := by
  intro hm
  have hall := (Bool.and_eq_true_iff.mp h).2
  have hmem : b ∈ utf8Bytes s := by
    rw [utf8Bytes_eq_flatMap, List.mem_flatMap]
    exact ⟨c, hm, hc⟩
  rw [List.all_eq_true.mp hall b hmem] at hb
  exact absurd hb (by decide)

namespace StartLine

def codeText (status : Nat) : List Char :=
  [Nat.digitChar (status / 100 % 10), Nat.digitChar (status / 10 % 10), Nat.digitChar (status % 10)]

def text : StartLine → List Char
  | .request method uri version => method.toList ++ ' ' :: (uri.toList ++ ' ' :: version.toList)
  | .response version status reason =>
    version.toList ++ ' ' :: (codeText status ++ ' ' :: reason.toList)
  | .encrypted => []

def bytes (l : StartLine) : Bytes := utf8Bytes (String.ofList l.text) ++ lineEnding

/-- A version names the protocol, is one word and stays on the line. -/
def IsVersion (s : String) : Prop := "HTTP/".toList <+: s.toList ∧ ' ' ∉ s.toList ∧ '\n' ∉ s.toList

instance : DecidablePred IsVersion := fun s =>
  inferInstanceAs (Decidable ("HTTP/".toList <+: s.toList ∧ ' ' ∉ s.toList ∧ '\n' ∉ s.toList))

/-- The start lines that messages begin with; status codes have three digits and no leading zero. -/
def Valid : StartLine → Prop
  | .request method uri version =>
    isToken (utf8Bytes method) = true ∧ uri.toList ≠ [] ∧ ' ' ∉ uri.toList ∧ '\n' ∉ uri.toList ∧
      IsVersion version
  | .response version status reason =>
    IsVersion version ∧ 100 ≤ status ∧ status < 1000 ∧ '\n' ∉ reason.toList
  | .encrypted => False

instance : DecidablePred Valid
  | .request method uri version =>
    inferInstanceAs (Decidable (isToken (utf8Bytes method) = true ∧ uri.toList ≠ [] ∧
      ' ' ∉ uri.toList ∧ '\n' ∉ uri.toList ∧ IsVersion version))
  | .response version status reason =>
    inferInstanceAs (Decidable (IsVersion version ∧ 100 ≤ status ∧ status < 1000 ∧
      '\n' ∉ reason.toList))
  | .encrypted => inferInstanceAs (Decidable False)

theorem digitChar_plain {d : Nat} (h : d < 10) :
    (Nat.digitChar d).isDigit = true ∧ (Nat.digitChar d).toNat - 48 = d ∧
      Nat.digitChar d ≠ ' ' ∧ Nat.digitChar d ≠ '\n' := by
  revert d
  decide

theorem codeText_plain (status : Nat) :
    (codeText status).all Char.isDigit = true ∧ ' ' ∉ codeText status ∧ '\n' ∉ codeText status := by
  have h₁ := digitChar_plain (Nat.mod_lt (status / 100) (by omega : 10 > 0))
  have h₂ := digitChar_plain (Nat.mod_lt (status / 10) (by omega : 10 > 0))
  have h₃ := digitChar_plain (Nat.mod_lt status (by omega : 10 > 0))
  simp [codeText, h₁, h₂, h₃, Ne.symm h₁.2.2.1, Ne.symm h₂.2.2.1, Ne.symm h₃.2.2.1,
    Ne.symm h₁.2.2.2, Ne.symm h₂.2.2.2, Ne.symm h₃.2.2.2]

theorem codeText_value {status : Nat} (h : status < 1000) :
    (codeText status).foldl (fun n c => n * 10 + (c.toNat - 48)) 0 = status := by
  have h₁ := digitChar_plain (Nat.mod_lt (status / 100) (by omega : 10 > 0))
  have h₂ := digitChar_plain (Nat.mod_lt (status / 10) (by omega : 10 > 0))
  have h₃ := digitChar_plain (Nat.mod_lt status (by omega : 10 > 0))
  simp only [codeText, List.foldl_cons, List.foldl_nil, h₁.2.1, h₂.2.1, h₃.2.1]
  omega

theorem lineFeed_not_mem_text {l : StartLine} (h : l.Valid) : '\n' ∉ l.text := by
  cases l with
  | request method uri version =>
    obtain ⟨hm, _, _, hu, hv⟩ := h
    have hmethod := not_mem_of_isToken hm (c := '\n') (b := 10) (by decide) (by decide)
    simp [text, hmethod, hu, hv.2.2]
  | response version status reason =>
    obtain ⟨hv, _, _, hr⟩ := h
    simp [text, hv.2.2, (codeText_plain status).2.2, hr]
  | encrypted => simp [text]

theorem startLine?_text {l : StartLine} (h : l.Valid) : startLine? l.text = some l := by
  cases l with
  | request method uri version =>
    obtain ⟨hm, hne, hspace, _, hv⟩ := h
    have hmethod := not_mem_of_isToken hm (c := ' ') (b := 32) (by decide) (by decide)
    have hslash := not_mem_of_isToken hm (c := '/') (b := 0x2f) (by decide) (by decide)
    have hnoslash : "HTTP/".toList.isPrefixOf method.toList = false := by
      rw [Bool.eq_false_iff, Ne, List.isPrefixOf_iff_prefix]
      exact fun hp => hslash (hp.subset (by decide))
    have hversion : "HTTP/".toList.isPrefixOf version.toList = true :=
      List.isPrefixOf_iff_prefix.mpr hv.1
    rw [text, startLine?, cutAt_append hmethod]
    dsimp only
    rw [cutAt_append hspace]
    dsimp only
    rw [hnoslash, if_neg Bool.false_ne_true, Option.bind_some, requestLine?, hversion]
    simp [hm, hne, hv.2.1]
  | response version status reason =>
    obtain ⟨hv, _, hlt, _⟩ := h
    have hversion : "HTTP/".toList.isPrefixOf version.toList = true :=
      List.isPrefixOf_iff_prefix.mpr hv.1
    have hcode := codeText_plain status
    rw [text, startLine?, cutAt_append hv.2.1]
    dsimp only
    rw [cutAt_append hcode.2.1, if_pos hversion, statusLine?, codeText_value hlt]
    simp [codeText] at hcode
    simp [codeText, hcode]
  | encrypted => exact absurd h id

theorem firstLine?_bytes {l : StartLine} (h : l.Valid) (rest : Bytes) :
    ∃ line, firstLine? (l.bytes ++ rest) = some line ∧ line.size = l.bytes.length ∧
      line.rest = rest ∧ read? line.text = some l := by
  have hlf : lineFeed ∉ utf8Bytes (String.ofList l.text) :=
    lineFeed_not_mem_utf8Bytes (by simpa using lineFeed_not_mem_text h)
  refine ⟨_, firstLine?_append hlf rest, ?_, rfl, ?_⟩
  · simp [bytes, lineEnding]
  · simp [read?, utf8Text?_utf8Bytes, startLine?_text h]

end StartLine

/-- A header line: a field, and the blanks between which its value stands. -/
structure HeaderLine where
  name : Bytes
  value : Bytes
  before : Bytes
  after : Bytes
  deriving DecidableEq, Repr

namespace HeaderLine

def text (h : HeaderLine) : Bytes := h.name ++ 0x3a :: (h.before ++ h.value ++ h.after)

def bytes (h : HeaderLine) : Bytes := h.text ++ lineEnding

/-- The field on the line, its name in lower case. -/
def field (h : HeaderLine) : Field := ⟨String.ofList (latinText (h.name.map lowerByte)), h.value⟩

def IsSpacing (bs : Bytes) : Prop := ∀ b ∈ bs, b = 32 ∨ b = 9

/-- The name and the value are of the bytes admitted there; the value is not blank at either end. -/
structure Valid (h : HeaderLine) : Prop where
  name : isToken h.name = true
  short : h.name.length ≤ 65535
  value : h.value.all isValueByte = true
  trimmed : Trimmed isBlankByte h.value
  before : IsSpacing h.before
  after : IsSpacing h.after

instance : DecidablePred IsSpacing := fun bs =>
  inferInstanceAs (Decidable (∀ b ∈ bs, b = 32 ∨ b = 9))

instance : DecidablePred Valid := fun h =>
  decidable_of_iff (isToken h.name = true ∧ h.name.length ≤ 65535 ∧ h.value.all isValueByte = true ∧
      Trimmed isBlankByte h.value ∧ IsSpacing h.before ∧ IsSpacing h.after)
    ⟨fun ⟨hn, hs, hv, ht, hb, ha⟩ => ⟨hn, hs, hv, ht, hb, ha⟩,
      fun ⟨hn, hs, hv, ht, hb, ha⟩ => ⟨hn, hs, hv, ht, hb, ha⟩⟩

theorem Valid.not_mem_name {h : HeaderLine} (hv : h.Valid) {b : UInt8}
    (hb : isTokenByte b = false) : b ∉ h.name := by
  intro hm
  rw [List.all_eq_true.mp (Bool.and_eq_true_iff.mp hv.name).2 b hm] at hb
  exact absurd hb (by decide)

theorem IsSpacing.isBlank {bs : Bytes} (h : IsSpacing bs) : ∀ b ∈ bs, isBlankByte b = true := by
  intro b hb
  rcases h b hb with rfl | rfl <;> rfl

theorem isBlankByte_cases {b : UInt8} (h : isBlankByte b = true) :
    b = 32 ∨ b = 9 ∨ b = 10 ∨ b = 12 ∨ b = 13 := by
  simpa [isBlankByte, or_assoc] using h

theorem isBlankByte_of_isTokenByte {b : UInt8} (h : isTokenByte b = true) :
    isBlankByte b = false := by
  rw [Bool.eq_false_iff]
  intro hb
  rcases isBlankByte_cases hb with rfl | rfl | rfl | rfl | rfl <;> exact absurd h (by decide)

theorem Valid.headerField? {h : HeaderLine} (hv : h.Valid) :
    headerField? h.text = some h.field := by
  have hname : trimBytes h.name = h.name := by
    refine trimBy_trimmed (trimmed_of_forall fun b hb => isBlankByte_of_isTokenByte ?_)
    exact List.all_eq_true.mp (Bool.and_eq_true_iff.mp hv.name).2 b hb
  have hvalue : trimBytes (h.before ++ h.value ++ h.after) = h.value :=
    trimBy_append hv.before.isBlank hv.after.isBlank hv.trimmed
  rw [text, HttpCapture.headerField?, cutAt_append (hv.not_mem_name (by decide)), Option.bind_some]
  dsimp only
  rw [hname, hvalue]
  simp [Field.ofBytes, fieldName?, hv.name, hv.short, hv.value, field, Except.toOption]

theorem Valid.lineFeed_not_mem_text {h : HeaderLine} (hv : h.Valid) : lineFeed ∉ h.text := by
  have hname := hv.not_mem_name (b := lineFeed) (by decide)
  have hspacing : ∀ bs, IsSpacing bs → lineFeed ∉ bs := by
    intro bs hbs hm
    rcases hbs _ hm with he | he <;> exact absurd he (by decide)
  have hvalue : lineFeed ∉ h.value := fun hm =>
    absurd (List.all_eq_true.mp hv.value _ hm) (by decide)
  simp [text, hname, hspacing _ hv.before, hspacing _ hv.after, hvalue]
  decide

theorem Valid.text_ne_nil (h : HeaderLine) : h.text ≠ [] := by simp [text]

theorem Valid.firstLine? {h : HeaderLine} (hv : h.Valid) (rest : Bytes) :
    HttpCapture.firstLine? (h.bytes ++ rest) = some ⟨h.text, h.bytes.length, rest⟩ := by
  rw [bytes, firstLine?_append hv.lineFeed_not_mem_text]
  simp [lineEnding]

end HeaderLine

theorem lineWithin?_of_firstLine? {limit : Nat} {bs : Bytes} {l : Line} (h : firstLine? bs = some l)
    (hsize : l.size ≤ limit) : lineWithin? limit bs = some l := by
  simp [lineWithin?, h, hsize]

def headerBytes (headers : List HeaderLine) : Bytes :=
  headers.flatMap HeaderLine.bytes ++ lineEnding

/-- Header lines that fit the limit are read up to the empty one, each giving its field. -/
theorem readHeaderLines_headerBytes {headers : List HeaderLine} (hv : ∀ h ∈ headers, h.Valid)
    {limit : Nat} (hlimit : (headerBytes headers).length ≤ limit) (rest : Bytes) :
    readHeaderLines limit (headerBytes headers ++ rest) =
      .complete (headers.map HeaderLine.field) (headerBytes headers).length rest := by
  induction headers generalizing limit with
  | nil =>
    have hline := lineWithin?_of_firstLine? (firstLine?_lineEnding rest) hlimit
    rw [readHeaderLines]
    split
    · next h => simp [headerBytes, hline] at h
    · next l h =>
      obtain rfl := Option.some.inj (hline.symm.trans h)
      rfl
  | cons header headers ih =>
    have hheader := hv header List.mem_cons_self
    have hsplit : headerBytes (header :: headers) = header.bytes ++ headerBytes headers := by
      simp [headerBytes]
    rw [hsplit, List.length_append] at hlimit
    have hsize : header.bytes.length ≤ limit := by omega
    have hline := lineWithin?_of_firstLine? (hheader.firstLine? (headerBytes headers ++ rest)) hsize
    have hrest : (headerBytes headers).length ≤ limit - header.bytes.length := by omega
    have ih := ih (fun h hm => hv h (List.mem_cons_of_mem _ hm)) hrest
    rw [hsplit, List.append_assoc, readHeaderLines]
    split
    · next h => simp [hline] at h
    · next l h =>
      obtain rfl := Option.some.inj (hline.symm.trans h)
      have hne : header.text.isEmpty = false := by simp [HeaderLine.Valid.text_ne_nil]
      dsimp only
      rw [hne, if_neg Bool.false_ne_true, ih, hheader.headerField?]
      simp [HeaderBlock.addLine]

/-- A head within the limit is read back in front of any bytes. -/
theorem readHead?_append {startLine : StartLine} (hs : startLine.Valid) {headers : List HeaderLine}
    (hv : ∀ h ∈ headers, h.Valid) {limit : Nat}
    (hlimit : (startLine.bytes ++ headerBytes headers).length ≤ limit) (rest : Bytes) :
    readHead? limit (startLine.bytes ++ headerBytes headers ++ rest) =
      some ⟨startLine, startLine.bytes.length,
        .complete (headers.map HeaderLine.field) (headerBytes headers).length rest⟩ := by
  rw [List.length_append] at hlimit
  obtain ⟨line, hline, hsize, hrest, hread⟩ :=
    StartLine.firstLine?_bytes hs (headerBytes headers ++ rest)
  have hfit : line.size ≤ limit := by omega
  have hwithin := lineWithin?_of_firstLine? hline hfit
  rw [List.append_assoc, readHead?, hwithin, Option.bind_some, hread, hsize, hrest,
    readHeaderLines_headerBytes hv (by omega)]
  rfl

end HttpCapture
