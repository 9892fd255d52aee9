import HttpCapture.Http.Quoted
import HttpCapture.Proofs.WrittenText

/-! The commas that separate the members of a list. A text is cut exactly at the commas that lie in
no quoted string, and a quoted string is told by what it is made of. Its bytes can be scanned
instead of its characters: they are cut at the same commas, and so never within a character. -/

namespace HttpCapture

/-- What may stand between two quotes. A backslash takes the next character with
it, whichever that is. -/
inductive QuotedText : List Char → Prop
  | nil : QuotedText []
  | plain {c s} (hquote : c ≠ '"') (hslash : c ≠ '\\') (h : QuotedText s) : QuotedText (c :: s)
  | escaped {c s} (h : QuotedText s) : QuotedText ('\\' :: c :: s)

/-- Text of which every quoted string has ended. -/
inductive ClosedText : List Char → Prop
  | nil : ClosedText []
  | plain {c s} (hquote : c ≠ '"') (h : ClosedText s) : ClosedText (c :: s)
  | quoted {body s} (hbody : QuotedText body) (h : ClosedText s) :
      ClosedText ('"' :: (body ++ '"' :: s))

/-- No quote ends a quoted string that goes on with this text. -/
def Unended (s : List Char) : Prop := ∀ inner rest, QuotedText inner → s ≠ inner ++ '"' :: rest

/-- The places of a quoted string, its quotes included. It begins with a quote outside
the quoted strings before it, and runs to the next quote that is not escaped, or else
to the end of the text. -/
inductive QuotedSpan : List Char → Nat → Nat → Prop
  | closed {before body after} (hbefore : ClosedText before) (hbody : QuotedText body) :
      QuotedSpan (before ++ '"' :: (body ++ '"' :: after)) before.length
        (before.length + (body.length + 2))
  | unclosed {before body} (hbefore : ClosedText before) (hbody : Unended body) :
      QuotedSpan (before ++ '"' :: body) before.length (before.length + (body.length + 1))

namespace QuoteState

@[simp] theorem after_nil (q : QuoteState) : q.after [] = q := rfl

@[simp] theorem after_cons (q : QuoteState) (c : Char) (s : List Char) :
    q.after (c :: s) = (q.next c).after s := rfl

theorem after_append (q : QuoteState) (s t : List Char) : q.after (s ++ t) = (q.after s).after t :=
  List.foldl_append

end QuoteState

open QuoteState

theorem QuotedText.after_inside {s : List Char} (h : QuotedText s) : inside.after s = inside := by
  induction h with
  | nil => rfl
  | plain hquote hslash _ ih => simpa [QuoteState.next, hquote, hslash] using ih
  | escaped _ ih => simpa [QuoteState.next] using ih

theorem ClosedText.after_outside {s : List Char} (h : ClosedText s) :
    outside.after s = outside := by
  induction h with
  | nil => rfl
  | plain hquote _ ih => simpa [QuoteState.next, hquote] using ih
  | quoted hbody _ ih =>
    rw [after_cons, after_append]
    simpa [QuoteState.next, hbody.after_inside] using ih

theorem exists_quote_of_after : ∀ {s : List Char}, inside.after s = outside →
    ∃ inner rest, QuotedText inner ∧ s = inner ++ '"' :: rest
  | [], h => by cases h
  | c :: s, h => by
    by_cases hquote : c = '"'
    · exact ⟨[], s, .nil, by rw [hquote]; rfl⟩
    · by_cases hslash : c = '\\'
      · subst hslash
        cases s with
        | nil => cases h
        | cons d s =>
          obtain ⟨inner, rest, hinner, rfl⟩ := exists_quote_of_after (s := s) h
          exact ⟨_, rest, .escaped hinner, rfl⟩
      · have hs : inside.after s = outside := by
          simpa [QuoteState.next, hquote, hslash] using h
        obtain ⟨inner, rest, hinner, rfl⟩ := exists_quote_of_after hs
        exact ⟨_, rest, .plain hquote hslash hinner, rfl⟩

theorem Unended.after_inside {s : List Char} (h : Unended s) (n : Nat) :
    inside.after (s.take n) ≠ outside := by
  intro hout
  obtain ⟨inner, rest, hinner, htake⟩ := exists_quote_of_after hout
  refine h inner (rest ++ s.drop n) hinner ?_
  rw [← List.cons_append, ← List.append_assoc, ← htake, List.take_append_drop]

theorem QuotedText.of_cons {c : Char} {s : List Char} (h : QuotedText (c :: s))
    (hslash : c ≠ '\\') : c ≠ '"' ∧ QuotedText s := by
  cases h with
  | plain hquote _ h => exact ⟨hquote, h⟩
  | escaped => contradiction

theorem QuotedText.unended {s : List Char} (h : QuotedText s) : Unended s := by
  rintro inner rest hinner rfl
  induction hinner with
  | nil => exact (h.of_cons (by decide)).1 rfl
  | plain _ hslash _ ih => exact ih (h.of_cons hslash).2
  | escaped _ ih =>
    rw [List.cons_append, List.cons_append] at h
    cases h with
    | plain => contradiction
    | escaped h => exact ih h

theorem closed_or_open (s : List Char) :
    (outside.after s = outside ∧ ClosedText s) ∨ (outside.after s ≠ outside ∧
      ∃ before body, ClosedText before ∧ Unended body ∧ s = before ++ '"' :: body) := by
  induction hlength : s.length using Nat.strongRecOn generalizing s with
  | ind n ih =>
    cases s with
    | nil => exact .inl ⟨rfl, .nil⟩
    | cons c s =>
      subst hlength
      by_cases hquote : c = '"'
      · subst hquote
        by_cases hend : ∃ inner rest, QuotedText inner ∧ s = inner ++ '"' :: rest
        · obtain ⟨inner, rest, hinner, rfl⟩ := hend
          have hstate : outside.after ('"' :: (inner ++ '"' :: rest)) = outside.after rest := by
            rw [after_cons, after_append]
            simp [QuoteState.next, hinner.after_inside]
          rw [hstate]
          rcases ih rest.length (by simp; omega) rest rfl with
            ⟨hout, hrest⟩ | ⟨hin, before, body, hbefore, hbody, rfl⟩
          · exact .inl ⟨hout, .quoted hinner hrest⟩
          · exact .inr ⟨hin, _, body, .quoted hinner hbefore, hbody, by simp⟩
        · have hopen : Unended s := fun inner rest hinner hs => hend ⟨inner, rest, hinner, hs⟩
          have hin := hopen.after_inside s.length
          rw [List.take_length] at hin
          exact .inr ⟨hin, [], s, .nil, hopen, rfl⟩
      · have hstate : outside.after (c :: s) = outside.after s := by simp [QuoteState.next, hquote]
        rw [hstate]
        rcases ih s.length (by simp) s rfl with
          ⟨hout, hs⟩ | ⟨hin, before, body, hbefore, hbody, rfl⟩
        · exact .inl ⟨hout, .plain hquote hs⟩
        · exact .inr ⟨hin, c :: before, body, .plain hquote hbefore, hbody, rfl⟩

/-- A comma lies in no quoted string just if the text in front of it has all its
quoted strings ended. -/
theorem outside_iff_no_span {s : List Char} {i : Nat} (hi : s[i]? = some ',') :
    outside.after (s.take i) = outside ↔
      ∀ first stop, QuotedSpan s first stop → ¬(first ≤ i ∧ i < stop) := by
  constructor
  · rintro hout first stop hspan ⟨hfirst, hstop⟩
    -- The places behind the opening quote are read within the quoted string.
    have hinside : ∀ {before rest : List Char}, s = before ++ '"' :: rest → ClosedText before →
        before.length = first → ∃ n, i = before.length + (n + 1) ∧
          outside.after (s.take i) = inside.after (rest.take n) := by
      rintro before rest rfl hbefore hlength
      rcases Nat.exists_eq_add_of_le (hlength ▸ hfirst) with ⟨n, rfl⟩
      cases n with
      | zero => simp at hi
      | succ n =>
        refine ⟨n, rfl, ?_⟩
        rw [List.take_length_add_append, List.take_succ_cons, after_append, hbefore.after_outside]
        rfl
    cases hspan with
    | @closed before body after hbefore hbody =>
      obtain ⟨n, rfl, hafter⟩ := hinside rfl hbefore rfl
      rw [hout, List.take_append_of_le_length (by omega)] at hafter
      exact hbody.unended.after_inside n hafter.symm
    | @unclosed before body hbefore hbody =>
      obtain ⟨n, rfl, hafter⟩ := hinside rfl hbefore rfl
      exact hbody.after_inside n (hafter.symm.trans hout)
  · intro hfree
    rcases closed_or_open (s.take i) with ⟨hout, -⟩ | ⟨-, before, body, hbefore, hbody, htake⟩
    · exact hout
    · exfalso
      have hs : s = before ++ '"' :: (body ++ s.drop i) := by
        rw [← List.cons_append, ← List.append_assoc, ← htake, List.take_append_drop]
      have hplace : i = before.length + (body.length + 1) := by
        have hlt := (List.getElem?_eq_some_iff.mp hi).1
        have hlength := congrArg List.length htake
        rw [List.length_take, List.length_append, List.length_cons] at hlength
        omega
      by_cases hend : ∃ inner rest, QuotedText inner ∧ body ++ s.drop i = inner ++ '"' :: rest
      · obtain ⟨inner, rest, hinner, hrest⟩ := hend
        -- The quote that ends the string is not among the characters in front of the comma.
        have hlong : body.length ≤ inner.length := by
          rcases List.append_eq_append_iff.mp hrest with ⟨tail, rfl, -⟩ | ⟨tail, hbody', htail⟩
          · rw [List.length_append]
            omega
          · cases tail with
            | nil => simp [hbody']
            | cons c tail =>
              obtain ⟨rfl, -⟩ := List.cons.inj htail
              exact absurd hbody' (hbody inner tail hinner)
        rw [hrest] at hs
        have hspan : QuotedSpan (before ++ '"' :: (inner ++ '"' :: rest)) _ _ :=
          .closed hbefore hinner
        rw [← hs] at hspan
        exact hfree _ _ hspan ⟨by omega, by omega⟩
      · have hopen : Unended (body ++ s.drop i) := fun inner rest hinner h =>
          hend ⟨inner, rest, hinner, h⟩
        have hspan := QuotedSpan.unclosed hbefore hopen
        rw [← hs, List.length_append, List.length_drop] at hspan
        have hlt := (List.getElem?_eq_some_iff.mp hi).1
        exact hfree _ _ hspan ⟨by omega, by omega⟩

section Joints

variable {α : Type}

/-- The places of the separators between parts, the first of which begins at `place`. -/
def joints (place : Nat) : List (List α) → List Nat
  | [] => []
  | [_] => []
  | part :: next :: parts =>
    (place + part.length) :: joints (place + part.length + 1) (next :: parts)

/-- What lies between the given places, in front of the first of them and behind the last. -/
def slicesFrom (start : Nat) (l : List α) : List Nat → List (List α)
  | [] => [l.drop start]
  | place :: places => (l.drop start).take (place - start) :: slicesFrom (place + 1) l places

theorem joints_cons (place : Nat) (part : List α) {parts : List (List α)} (h : parts ≠ []) :
    joints place (part :: parts) =
      (place + part.length) :: joints (place + part.length + 1) parts := by
  obtain ⟨next, parts, rfl⟩ := List.exists_cons_of_ne_nil h
  rfl

theorem slicesFrom_joints (sep : α) (before : List α) {parts : List (List α)} (h : parts ≠ []) :
    slicesFrom before.length (before ++ [sep].intercalate parts) (joints before.length parts) =
      parts := by
  induction parts generalizing before with
  | nil => exact absurd rfl h
  | cons part parts ih =>
    cases parts with
    | nil => simp [joints, slicesFrom]
    | cons next parts =>
      have hrest := ih (before ++ part ++ [sep]) (List.cons_ne_nil _ _)
      rw [List.intercalate_cons_cons, joints, slicesFrom, List.drop_left, List.append_assoc,
        Nat.add_sub_cancel_left, List.take_left]
      simpa [Nat.add_assoc] using hrest

end Joints

theorem splitUnquotedFrom_ne_nil (q : QuoteState) (part s : List Char) :
    splitUnquotedFrom q part s ≠ [] := by
  induction s generalizing q part with
  | nil => exact List.cons_ne_nil _ _
  | cons c s ih =>
    rw [splitUnquotedFrom]
    split
    · exact List.cons_ne_nil _ _
    · exact ih _ _

theorem intercalate_splitUnquotedFrom (q : QuoteState) (part s : List Char) :
    [','].intercalate (splitUnquotedFrom q part s) = part.reverse ++ s := by
  induction s generalizing q part with
  | nil => simp [splitUnquotedFrom]
  | cons c s ih =>
    rw [splitUnquotedFrom]
    split
    · next hcomma =>
      obtain ⟨next, parts, hparts⟩ :=
        List.exists_cons_of_ne_nil (splitUnquotedFrom_ne_nil outside [] s)
      have hrest := ih outside []
      rw [hparts] at hrest ⊢
      rw [List.intercalate_cons_cons, hrest, hcomma.2]
      simp
    · rw [ih]
      simp

section Spelling

variable {α : Type} {spell : Char → List α} {sep : α}

theorem intercalate_map_flatMap (hsep : spell ',' = [sep]) (parts : List (List Char)) :
    [sep].intercalate (parts.map (·.flatMap spell)) = ([','].intercalate parts).flatMap spell := by
  induction parts with
  | nil => rfl
  | cons part parts ih =>
    cases parts with
    | nil => simp
    | cons next parts =>
      rw [List.map_cons, List.map_cons, List.intercalate_cons_cons, ← List.map_cons, ih,
        List.intercalate_cons_cons]
      simp [hsep]

/-- However the characters are spelled out, the joints are at the commas that
no quoted string holds. -/
theorem mem_joints_splitUnquotedFrom (hsep : spell ',' = [sep]) (q : QuoteState)
    (part s : List Char) (place joint : Nat) :
    joint ∈ joints place ((splitUnquotedFrom q part s).map (·.flatMap spell)) ↔
      ∃ n, s[n]? = some ',' ∧ q.after (s.take n) = outside ∧
        joint = place + ((part.reverse ++ s.take n).flatMap spell).length := by
  induction s generalizing q part place with
  | nil => simp [splitUnquotedFrom, joints]
  | cons c s ih =>
    rw [← Nat.or_exists_add_one, splitUnquotedFrom]
    split
    · next hcomma =>
      obtain ⟨rfl, rfl⟩ := hcomma
      rw [List.map_cons, joints_cons _ _ (by simpa using splitUnquotedFrom_ne_nil _ _ _),
        List.mem_cons, ih]
      simp [QuoteState.next, hsep, Nat.add_assoc, Nat.add_comm, Nat.add_left_comm]
    · next hcomma =>
      have hnone : ¬((c :: s)[0]? = some ',' ∧ q.after ((c :: s).take 0) = outside ∧
          joint = place + ((part.reverse ++ (c :: s).take 0).flatMap spell).length) :=
        fun h => hcomma ⟨h.2.1, Option.some.inj h.1⟩
      rw [ih, or_iff_right hnone]
      simp

end Spelling

section Bytes

/-- The places of the commas at which bytes are cut. Two flags go along: whether a quoted string has
begun, and whether a backslash in it escapes the next byte. -/
def commaOffsets (quoted escaped : Bool) (offset : Nat) : Bytes → List Nat
  | [] => []
  | b :: bs =>
    if b = 92 ∧ quoted = true ∧ escaped = false then commaOffsets quoted true (offset + 1) bs
    else if b = 34 ∧ escaped = false then commaOffsets (!quoted) false (offset + 1) bs
    else if b = 44 ∧ quoted = false then offset :: commaOffsets quoted false (offset + 1) bs
    else commaOffsets quoted false (offset + 1) bs

def QuoteState.isQuoted : QuoteState → Bool
  | outside => false
  | inside | escaped => true

def QuoteState.isEscaped : QuoteState → Bool
  | outside | inside => false
  | escaped => true

/-- A character is written as itself, or in bytes that are no ASCII. -/
theorem utf8EncodeChar_cases (c : Char) :
    (String.utf8EncodeChar c = [UInt8.ofNat c.toNat] ∧ c.toNat < 128) ∨
      (String.utf8EncodeChar c ≠ [] ∧ 128 ≤ c.toNat ∧
        ∀ b ∈ String.utf8EncodeChar c, 128 ≤ b.toNat) := by
  have hbyte : ∀ n, 128 ≤ n % 256 → 128 ≤ (UInt8.ofNat n).toNat := fun n hn => by simpa using hn
  fun_cases String.utf8EncodeChar c with
  | case1 v hle => exact .inl ⟨rfl, by simp only [Char.toNat]; omega⟩
  | case2 v =>
    refine .inr ⟨List.cons_ne_nil _ _, by simp only [Char.toNat]; omega, ?_⟩
    simp only [List.forall_mem_cons, List.not_mem_nil, false_imp_iff, implies_true, and_true]
    exact ⟨hbyte _ (by omega), hbyte _ (by omega)⟩
  | case3 v =>
    refine .inr ⟨List.cons_ne_nil _ _, by simp only [Char.toNat]; omega, ?_⟩
    simp only [List.forall_mem_cons, List.not_mem_nil, false_imp_iff, implies_true, and_true]
    exact ⟨hbyte _ (by omega), hbyte _ (by omega), hbyte _ (by omega)⟩
  | case4 v =>
    refine .inr ⟨List.cons_ne_nil _ _, by simp only [Char.toNat]; omega, ?_⟩
    simp only [List.forall_mem_cons, List.not_mem_nil, false_imp_iff, implies_true, and_true]
    exact ⟨hbyte _ (by omega), hbyte _ (by omega), hbyte _ (by omega), hbyte _ (by omega)⟩

theorem commaOffsets_of_large (quoted escaped : Bool) (offset : Nat) {b : UInt8}
    (hb : 128 ≤ b.toNat) (bs : Bytes) :
    commaOffsets quoted escaped offset (b :: bs) = commaOffsets quoted false (offset + 1) bs := by
  have hne : ∀ n : UInt8, n.toNat < 128 → b ≠ n := by
    rintro n hn rfl
    omega
  rw [commaOffsets, if_neg fun h => hne 92 (by decide) h.1, if_neg fun h => hne 34 (by decide) h.1,
    if_neg fun h => hne 44 (by decide) h.1]

theorem commaOffsets_append_of_large (quoted : Bool) (offset : Nat) {bs : Bytes}
    (hbs : ∀ b ∈ bs, 128 ≤ b.toNat) (rest : Bytes) :
    commaOffsets quoted false offset (bs ++ rest) =
      commaOffsets quoted false (offset + bs.length) rest := by
  induction bs generalizing offset with
  | nil => rfl
  | cons b bs ih =>
    rw [List.cons_append, commaOffsets_of_large _ _ _ (hbs b List.mem_cons_self),
      ih _ fun c hc => hbs c (List.mem_cons_of_mem _ hc), List.length_cons, Nat.add_assoc,
      Nat.add_comm 1]

/-- The flags follow the state from character to character. -/
theorem commaOffsets_char (q : QuoteState) (offset : Nat) (c : Char) (rest : Bytes) :
    commaOffsets q.isQuoted q.isEscaped offset (String.utf8EncodeChar c ++ rest) =
      if q = outside ∧ c = ',' then
        offset :: commaOffsets outside.isQuoted outside.isEscaped (offset + 1) rest
      else commaOffsets (q.next c).isQuoted (q.next c).isEscaped
        (offset + (String.utf8EncodeChar c).length) rest := by
  rcases utf8EncodeChar_cases c with ⟨hchar, hsmall⟩ | ⟨hne, hlarge, hbytes⟩
  · have hbyte : ∀ d : Char, d.toNat < 128 →
        (UInt8.ofNat c.toNat = UInt8.ofNat d.toNat ↔ c = d) := by
      intro d hd
      have hsize : UInt8.size = 256 := rfl
      rw [← UInt8.toNat_inj, UInt8.toNat_ofNat_of_lt' (by omega),
        UInt8.toNat_ofNat_of_lt' (by omega)]
      exact Char.toNat_inj
    have hslash : UInt8.ofNat c.toNat = 92 ↔ c = '\\' := hbyte '\\' (by decide)
    have hquote : UInt8.ofNat c.toNat = 34 ↔ c = '"' := hbyte '"' (by decide)
    have hcomma : UInt8.ofNat c.toNat = 44 ↔ c = ',' := hbyte ',' (by decide)
    rw [hchar, List.singleton_append, commaOffsets]
    simp only [hslash, hquote, hcomma]
    cases q with
    | outside => by_cases c = '"' <;> simp_all [QuoteState.next, isQuoted, isEscaped]
    | inside =>
      by_cases c = '\\' <;> by_cases c = '"' <;> simp_all [QuoteState.next, isQuoted, isEscaped]
    | escaped => simp [QuoteState.next, isQuoted, isEscaped]
  · have hne' : ∀ d : Char, d.toNat < 128 → c ≠ d := by
      rintro d hd rfl
      omega
    obtain ⟨b, bs, hencode⟩ := List.exists_cons_of_ne_nil hne
    rw [hencode] at hbytes ⊢
    rw [if_neg fun h => hne' ',' (by decide) h.2, List.cons_append,
      commaOffsets_of_large _ _ _ (hbytes b List.mem_cons_self),
      commaOffsets_append_of_large _ _ fun d hd => hbytes d (List.mem_cons_of_mem _ hd),
      List.length_cons, Nat.add_assoc, Nat.add_comm 1]
    have hquote := hne' '"' (by decide)
    have hslash := hne' '\\' (by decide)
    cases q <;> simp [QuoteState.next, isQuoted, isEscaped, hquote, hslash]

theorem commaOffsets_eq_joints (q : QuoteState) (place : Nat) (part s : List Char) :
    commaOffsets q.isQuoted q.isEscaped
        (place + (part.reverse.flatMap String.utf8EncodeChar).length)
        (s.flatMap String.utf8EncodeChar) =
      joints place ((splitUnquotedFrom q part s).map (·.flatMap String.utf8EncodeChar)) := by
  induction s generalizing q place part with
  | nil => rfl
  | cons c s ih =>
    rw [List.flatMap_cons, commaOffsets_char, splitUnquotedFrom]
    split
    · rw [List.map_cons, joints_cons _ _ (by simpa using splitUnquotedFrom_ne_nil _ _ _), ← ih]
      rfl
    · rw [← ih, List.reverse_cons, List.flatMap_append, List.length_append, Nat.add_assoc]
      simp

theorem isValid_take (s : String) (n : Nat) :
    String.Pos.Raw.IsValid s ⟨((s.toList.take n).flatMap String.utf8EncodeChar).length⟩ := by
  rw [String.Pos.Raw.isValid_iff_exists_append]
  refine ⟨String.ofList (s.toList.take n), String.ofList (s.toList.drop n), ?_, ?_⟩
  · rw [← String.ofList_append, List.take_append_drop, String.ofList_toList]
  · have hsize := congrArg List.length (utf8Bytes_eq_flatMap (String.ofList (s.toList.take n)))
    rw [String.toList_ofList] at hsize
    rw [← hsize]
    rfl

end Bytes

/-- A text is cut at the commas that no quoted string holds, and at no others. Its bytes are cut at
the same commas, each between two characters, so that the slices are the parts in UTF-8. -/
theorem splitUnquoted_cuts (s : String) :
    [','].intercalate (splitUnquoted s.toList) = s.toList ∧
      (∀ i, i ∈ joints 0 (splitUnquoted s.toList) ↔ s.toList[i]? = some ',' ∧
        ∀ first stop, QuotedSpan s.toList first stop → ¬(first ≤ i ∧ i < stop)) ∧
      slicesFrom 0 (utf8Bytes s) (commaOffsets false false 0 (utf8Bytes s)) =
        (splitUnquoted s.toList).map (fun part => utf8Bytes (String.ofList part)) ∧
      ∀ offset ∈ commaOffsets false false 0 (utf8Bytes s),
        String.Pos.Raw.IsValid s ⟨offset⟩ ∧ String.Pos.Raw.IsValid s ⟨offset + 1⟩ := by
  have hcomma : String.utf8EncodeChar ',' = [44] := by decide
  have hjoin : [','].intercalate (splitUnquoted s.toList) = s.toList :=
    intercalate_splitUnquotedFrom outside [] s.toList
  have hne : splitUnquoted s.toList ≠ [] := splitUnquotedFrom_ne_nil outside [] s.toList
  have hbytes : utf8Bytes s =
      [44].intercalate ((splitUnquoted s.toList).map (·.flatMap String.utf8EncodeChar)) := by
    rw [intercalate_map_flatMap hcomma, hjoin, utf8Bytes_eq_flatMap]
  have hoffsets : commaOffsets false false 0 (utf8Bytes s) =
      joints 0 ((splitUnquoted s.toList).map (·.flatMap String.utf8EncodeChar)) := by
    rw [utf8Bytes_eq_flatMap]
    exact commaOffsets_eq_joints outside 0 [] s.toList
  refine ⟨hjoin, fun i => ?_, ?_, fun offset hoffset => ?_⟩
  · have hchars : (splitUnquoted s.toList).map (·.flatMap fun c => [c]) =
        splitUnquoted s.toList := by simp
    have hjoints : i ∈ joints 0 ((splitUnquoted s.toList).map (·.flatMap fun c => [c])) ↔ _ :=
      mem_joints_splitUnquotedFrom rfl outside [] s.toList 0 i
    rw [hchars] at hjoints
    rw [hjoints]
    constructor
    · rintro ⟨n, hn, hout, rfl⟩
      have hlt := (List.getElem?_eq_some_iff.mp hn).1
      have hplace : 0 + (([].reverse ++ s.toList.take n).flatMap fun c => [c]).length = n := by
        simp
        omega
      rw [hplace]
      exact ⟨hn, (outside_iff_no_span hn).mp hout⟩
    · rintro ⟨hi, hfree⟩
      have hlt := (List.getElem?_eq_some_iff.mp hi).1
      refine ⟨i, hi, (outside_iff_no_span hi).mpr hfree, ?_⟩
      simp
      omega
  · have hne' : (splitUnquoted s.toList).map (·.flatMap String.utf8EncodeChar) ≠ [] := by
      simpa using hne
    have hslices := slicesFrom_joints 44 [] hne'
    rw [List.nil_append, ← hbytes, List.length_nil, ← hoffsets] at hslices
    rw [hslices]
    simp [utf8Bytes_eq_flatMap]
  · rw [hoffsets] at hoffset
    obtain ⟨n, hn, -, rfl⟩ :=
      (mem_joints_splitUnquotedFrom hcomma outside [] s.toList 0 offset).mp hoffset
    have hnext := isValid_take s (n + 1)
    rw [List.take_add_one, hn, List.flatMap_append, List.length_append] at hnext
    simp only [List.reverse_nil, List.nil_append, Nat.zero_add]
    exact ⟨isValid_take s n, hnext⟩

/-- An escaped quote does not end the quoted string. -/
example : splitUnquoted "x=\"a\\\",b\", y".toList = ["x=\"a\\\",b\"".toList, " y".toList] := by
  decide

end HttpCapture
