import HttpCapture.Http.Chunked
import HttpCapture.Http.Fields

/-! What is written can be read: a line up to its ending, a value between blanks, a text in UTF-8
and a number in digits. -/

namespace HttpCapture

section Cut

variable {α : Type} [BEq α] [LawfulBEq α]

theorem cutAt_append {sep : α} {xs : List α} (h : sep ∉ xs) (ys : List α) :
    cutAt sep (xs ++ sep :: ys) = some (xs, ys) := by
  have hall : ∀ x ∈ xs, (x != sep) = true := fun x hx => bne_iff_ne.mpr fun he => h (he ▸ hx)
  simp [cutAt, List.dropWhile_append_of_pos hall, List.takeWhile_append_of_pos hall]

end Cut

theorem mapM_eq_some_map {α β : Type} {f : α → Option β} {g : α → β} {l : List α}
    (h : ∀ a ∈ l, f a = some (g a)) : l.mapM f = some (l.map g) := by
  induction l with
  | nil => rfl
  | cons a l ih =>
    have htail := ih fun b hb => h b (List.mem_cons_of_mem _ hb)
    simp [List.mapM_cons, h a List.mem_cons_self, htail]

theorem dropReturn_append (xs : Bytes) : dropReturn (xs ++ [13]) = xs := by
  simp [dropReturn, carriageReturn]

/-- A line without line feeds is read back, whatever follows its ending. -/
theorem firstLine?_append {xs : Bytes} (h : lineFeed ∉ xs) (rest : Bytes) :
    firstLine? (xs ++ lineEnding ++ rest) = some ⟨xs, xs.length + 2, rest⟩ := by
  have hcut : cutAt lineFeed (xs ++ [13] ++ lineFeed :: rest) = some (xs ++ [13], rest) := by
    refine cutAt_append ?_ rest
    simpa [lineFeed] using h
  have hsplit : xs ++ lineEnding ++ rest = xs ++ [13] ++ lineFeed :: rest := by
    simp [lineEnding, lineFeed]
  rw [firstLine?, hsplit, hcut]
  simp [dropReturn_append]

theorem firstLine?_lineEnding (rest : Bytes) :
    firstLine? (lineEnding ++ rest) = some ⟨[], 2, rest⟩ := by
  simpa using firstLine?_append List.not_mem_nil rest

section Trim

variable {α : Type} {p : α → Bool}

/-- A list that is not blank at either end. -/
def Trimmed (p : α → Bool) (l : List α) : Prop :=
  (∀ a ∈ l.head?, p a = false) ∧ ∀ a ∈ l.getLast?, p a = false

instance (p : α → Bool) (l : List α) : Decidable (Trimmed p l) :=
  inferInstanceAs (Decidable ((∀ a ∈ l.head?, p a = false) ∧ ∀ a ∈ l.getLast?, p a = false))

theorem dropWhile_of_head {l : List α} (h : ∀ a ∈ l.head?, p a = false) : l.dropWhile p = l := by
  cases l with
  | nil => rfl
  | cons a l => simp [h a rfl]

theorem trimBy_trimmed {l : List α} (h : Trimmed p l) : trimBy p l = l := by
  unfold trimBy
  rw [dropWhile_of_head h.1, dropWhile_of_head (by simpa using h.2), List.reverse_reverse]

theorem trimBy_of_all {l : List α} (h : ∀ a ∈ l, p a = true) : trimBy p l = [] := by
  have hdrop : (l ++ []).dropWhile p = [].dropWhile p := List.dropWhile_append_of_pos h
  simp only [List.append_nil, List.dropWhile_nil] at hdrop
  simp [trimBy, hdrop]

theorem trimBy_append {before after l : List α} (hb : ∀ a ∈ before, p a = true)
    (ha : ∀ a ∈ after, p a = true) (h : Trimmed p l) : trimBy p (before ++ l ++ after) = l := by
  by_cases hl : l = []
  · subst hl
    refine trimBy_of_all fun a hm => ?_
    simp only [List.append_nil, List.mem_append] at hm
    exact hm.elim (hb a) (ha a)
  · unfold trimBy
    obtain ⟨a, tail, rfl⟩ := List.exists_cons_of_ne_nil hl
    have hhead : ∀ b ∈ (a :: tail ++ after).head?, p b = false := h.1
    rw [List.append_assoc, List.dropWhile_append_of_pos hb, dropWhile_of_head hhead,
      List.reverse_append, List.dropWhile_append_of_pos (by simpa using ha),
      dropWhile_of_head (by rw [List.head?_reverse]; exact h.2), List.reverse_reverse]

theorem trimmed_of_forall {l : List α} (h : ∀ a ∈ l, p a = false) : Trimmed p l :=
  ⟨fun a ha => h a (List.mem_of_mem_head? ha), fun a ha => h a (List.mem_of_getLast? ha)⟩

end Trim

theorem utf8Text?_utf8Bytes (s : String) : utf8Text? (utf8Bytes s) = some s := by
  have hvalid : s.toByteArray.IsValidUTF8 := s.isValidUTF8
  simp [utf8Text?, utf8Bytes, String.fromUTF8?, hvalid, String.fromUTF8]

theorem utf8Bytes_eq_flatMap (s : String) :
    utf8Bytes s = s.toList.flatMap String.utf8EncodeChar := by
  rw [utf8Bytes, String.toUTF8_eq_toByteArray, ← String.utf8Encode_toList, List.utf8Encode,
    List.data_toByteArray]

theorem lineFeed_not_mem_utf8EncodeChar {c : Char} (h : c ≠ '\n') :
    lineFeed ∉ String.utf8EncodeChar c := by
  have hv : c.val.toNat ≠ 10 := fun he => h (Char.toNat_inj.mp he)
  have hbyte : ∀ n, n % 256 ≠ 10 → lineFeed ≠ UInt8.ofNat n := fun n hn he =>
    hn (by simpa [lineFeed] using (congrArg UInt8.toNat he).symm)
  fun_cases String.utf8EncodeChar c with
  | case1 v hle => simpa using hbyte v (by omega)
  | case2 v =>
    simp only [List.mem_cons, List.not_mem_nil, or_false, not_or]
    exact ⟨hbyte _ (by omega), hbyte _ (by omega)⟩
  | case3 v =>
    simp only [List.mem_cons, List.not_mem_nil, or_false, not_or]
    exact ⟨hbyte _ (by omega), hbyte _ (by omega), hbyte _ (by omega)⟩
  | case4 v =>
    simp only [List.mem_cons, List.not_mem_nil, or_false, not_or]
    exact ⟨hbyte _ (by omega), hbyte _ (by omega), hbyte _ (by omega), hbyte _ (by omega)⟩

theorem lineFeed_not_mem_utf8Bytes {s : String} (h : '\n' ∉ s.toList) : lineFeed ∉ utf8Bytes s := by
  rw [utf8Bytes_eq_flatMap, List.mem_flatMap]
  rintro ⟨c, hc, hm⟩
  exact lineFeed_not_mem_utf8EncodeChar (fun he => h (he ▸ hc)) hm

/-- The number that decimal digits add to those read before. -/
def decimalFrom (acc : Nat) (digits : Bytes) : Nat :=
  digits.foldl (fun acc b => acc * 10 + (b.toNat - 48)) acc

theorem decimalFrom_cons (acc : Nat) (b : UInt8) (digits : Bytes) :
    decimalFrom acc (b :: digits) = decimalFrom (acc * 10 + (b.toNat - 48)) digits := by
  rw [decimalFrom, List.foldl_cons, decimalFrom]

/-- Decimal digits that spell a number; zeros may stand in front. -/
structure Spells (digits : Bytes) (n : Nat) : Prop where
  nonempty : digits ≠ []
  areDigits : ∀ b ∈ digits, isDigitByte b = true
  value : decimalFrom 0 digits = n

instance (digits : Bytes) (n : Nat) : Decidable (Spells digits n) :=
  decidable_of_iff ((!digits.isEmpty && digits.all isDigitByte && decimalFrom 0 digits == n) = true)
    ⟨fun h => by
      simp only [Bool.and_eq_true, Bool.not_eq_true', List.isEmpty_eq_false_iff, List.all_eq_true,
        beq_iff_eq] at h
      exact ⟨h.1.1, h.1.2, h.2⟩,
    fun ⟨hne, hd, hv⟩ => by simpa [hne, hv] using hd⟩

theorem isDigitByte_iff {b : UInt8} : isDigitByte b = true ↔ 48 ≤ b.toNat ∧ b.toNat ≤ 57 := by
  simp [isDigitByte, UInt8.le_iff_toNat_le]

theorem toNat_latin (b : UInt8) : (Char.ofNat b.toNat).toNat = b.toNat := by
  have hlt : b.toNat < 256 := UInt8.toNat_lt_size b
  have hvalid : b.toNat.isValidChar := .inl (by omega)
  rw [Char.ofNat, dif_pos hvalid]
  rfl

theorem latin_isDigit {b : UInt8} (h : isDigitByte b = true) :
    (Char.ofNat b.toNat).isDigit = true := by
  rw [Char.isDigit_iff_toNat, toNat_latin]
  exact isDigitByte_iff.mp h

theorem le_decimalFrom (digits : Bytes) (acc : Nat) : acc ≤ decimalFrom acc digits := by
  induction digits generalizing acc with
  | nil => exact Nat.le_refl acc
  | cons b digits ih =>
    have := ih (acc * 10 + (b.toNat - 48))
    rw [decimalFrom_cons]
    omega

theorem readDigits_latinText {digits : Bytes} (hd : ∀ b ∈ digits, isDigitByte b = true) (acc : Nat)
    (h : decimalFrom acc digits < wordBound) :
    readDigits acc (latinText digits) = .ok (decimalFrom acc digits) := by
  induction digits generalizing acc with
  | nil => rfl
  | cons b digits ih =>
    have hb := latin_isDigit (hd b List.mem_cons_self)
    have hlt : acc * 10 + (b.toNat - 48) < wordBound :=
      Nat.lt_of_le_of_lt (le_decimalFrom digits _) h
    have := ih (fun c hc => hd c (List.mem_cons_of_mem _ hc)) _ h
    simpa [latinText, readDigits, hb, toNat_latin, hlt, decimalFrom_cons] using this

theorem Spells.readUnsigned {digits : Bytes} {n : Nat} (h : Spells digits n) (hn : n < wordBound) :
    readUnsigned (latinText digits) = .ok n := by
  obtain ⟨hne, hd, rfl⟩ := h
  have hread := readDigits_latinText hd 0 hn
  obtain ⟨b, rest, rfl⟩ := List.exists_cons_of_ne_nil hne
  have hplus : Char.ofNat b.toNat ≠ '+' := by
    intro he
    have := latin_isDigit (hd b List.mem_cons_self)
    rw [he] at this
    exact absurd this (by decide)
  rw [← hread]
  unfold HttpCapture.readUnsigned latinText
  simp only [List.map_cons]
  split <;> simp_all

theorem isTextByte_of_isDigitByte {b : UInt8} (h : isDigitByte b = true) : isTextByte b = true := by
  have := isDigitByte_iff.mp h
  simp only [isTextByte, Bool.or_eq_true, Bool.and_eq_true, decide_eq_true_eq,
    UInt8.le_iff_toNat_le]
  left
  simp
  omega

theorem isBlank_latin_of_isDigitByte {b : UInt8} (h : isDigitByte b = true) :
    isBlank (Char.ofNat b.toNat) = false := by
  have := isDigitByte_iff.mp h
  simp only [isBlank, toNat_latin]
  simp
  omega

theorem Fields.number?_of_spells {fields : Fields} {name : String} {digits : Bytes} {n : Nat}
    (hv : fields.values name = [digits]) (h : Spells digits n) (hn : n < wordBound) :
    fields.number? name = some n := by
  have htext : valueText? digits = some (String.ofList (latinText digits)) := by
    have : digits.all isTextByte = true :=
      List.all_eq_true.mpr fun b hb => isTextByte_of_isDigitByte (h.areDigits b hb)
    simp [valueText?, this]
  have htrim : trim (latinText digits) = latinText digits := by
    refine trimBy_trimmed (trimmed_of_forall fun c hc => ?_)
    obtain ⟨b, hb, rfl⟩ := List.mem_map.mp hc
    exact isBlank_latin_of_isDigitByte (h.areDigits b hb)
  simp [Fields.number?, Fields.text?, hv, htext, htrim, h.readUnsigned hn, Except.toOption]

end HttpCapture
