import HttpCapture.Json.Number
import HttpCapture.Proofs.AddressRoundTrip

/-! Numbers read from the front of a text. What stands after a number does not change how it is
read, unless it goes on with the number. -/

namespace HttpCapture

theorem toList_toString (n : Int) : (toString n).toList =
    if n < 0 then '-' :: Nat.toDigits 10 n.natAbs else Nat.toDigits 10 n.natAbs := by
  cases n with
  | ofNat k =>
    rw [if_neg (by simp)]
    exact Nat.toList_repr
  | negSucc k =>
    rw [if_pos (Int.negSucc_lt_zero k)]
    simp [Int.repr_eq_if]

namespace NumberText

/-- What does not go on with a number. -/
def Stops (rest : List Char) : Prop :=
  ∀ c ∈ rest.head?, c.isDigit = false ∧ c ≠ '.' ∧ c ≠ 'e' ∧ c ≠ 'E'

theorem Stops.not_digit {rest : List Char} (h : Stops rest) : ∀ c ∈ rest.head?, c.isDigit = false :=
  fun c hc => (h c hc).1

theorem digits1?_append {s ds r rest : List Char} (h : digits1? s = some (ds, r))
    (hrest : ∀ c ∈ rest.head?, c.isDigit = false) :
    digits1? (s ++ rest) = some (ds, r ++ rest) := by
  unfold digits1? at h
  dsimp only at h
  split at h
  · exact absurd h (by simp)
  · next hne =>
    obtain ⟨rfl, rfl⟩ := Prod.mk.inj (Option.some.inj h)
    have hdigits : ∀ c ∈ s.takeWhile Char.isDigit, c.isDigit = true :=
      List.all_eq_true.mp List.all_takeWhile
    have hstop : ∀ c ∈ (s.dropWhile Char.isDigit ++ rest).head?, c.isDigit = false := by
      intro c hc
      rw [List.head?_append] at hc
      cases hd : (s.dropWhile Char.isDigit).head? with
      | none => exact hrest c (by simpa [hd] using hc)
      | some d =>
        have hlast := List.head?_dropWhile_not Char.isDigit s
        rw [hd] at hlast
        obtain rfl : d = c := by simpa [hd] using hc
        simpa using hlast
    have hsplit : s ++ rest = s.takeWhile Char.isDigit ++ (s.dropWhile Char.isDigit ++ rest) := by
      rw [← List.append_assoc, List.takeWhile_append_dropWhile]
    rw [digits1?, hsplit, takeWhile_append_of_head hdigits hstop,
      dropWhile_append_of_head hdigits hstop]
    simp only [hne, Bool.false_eq_true, if_false]

theorem readFraction?_of_head {s : List Char} (h : ∀ c ∈ s.head?, c ≠ '.') :
    readFraction? s = some (none, s) := by
  unfold readFraction?
  split
  · exact absurd rfl (h '.' rfl)
  · rfl

theorem readFraction?_append {s r rest : List Char} {f : Option (List Char)}
    (h : readFraction? s = some (f, r)) (hrest : Stops rest) :
    readFraction? (s ++ rest) = some (f, r ++ rest) := by
  cases s with
  | nil =>
    obtain ⟨rfl, rfl⟩ := Prod.mk.inj (Option.some.inj h)
    exact readFraction?_of_head fun c hc => (hrest c hc).2.1
  | cons c s =>
    by_cases hc : c = '.'
    · subst hc
      obtain ⟨⟨ds, r'⟩, hds, heq⟩ := Option.map_eq_some_iff.mp h
      obtain ⟨rfl, rfl⟩ := Prod.mk.inj heq
      simp [readFraction?, digits1?_append hds hrest.not_digit]
    · rw [readFraction?_of_head (by simpa using hc)] at h
      obtain ⟨rfl, rfl⟩ := Prod.mk.inj (Option.some.inj h)
      exact readFraction?_of_head (by simpa using hc)

theorem afterMark_append {s r rest : List Char} {e : Option (Bool × List Char)}
    (h : readExponent?.afterMark s = some (e, r)) (hrest : Stops rest) :
    readExponent?.afterMark (s ++ rest) = some (e, r ++ rest) := by
  have hdigits : ∀ {s : List Char} {negative : Bool},
      ((digits1? s).map fun read => (some (negative, read.1), read.2)) = some (e, r) →
      ((digits1? (s ++ rest)).map fun read => (some (negative, read.1), read.2)) =
        some (e, r ++ rest) := by
    intro s negative hs
    obtain ⟨⟨ds, r'⟩, hds, heq⟩ := Option.map_eq_some_iff.mp hs
    obtain ⟨rfl, rfl⟩ := Prod.mk.inj heq
    simp [digits1?_append hds hrest.not_digit]
  unfold readExponent?.afterMark at h
  split at h
  · exact hdigits h
  · exact hdigits h
  · next hminus hplus =>
    cases s with
    | nil => exact absurd h (by simp [digits1?])
    | cons c s =>
      rw [List.cons_append, readExponent?.afterMark]
      · exact hdigits h
      · exact fun s' heq => hminus s (by rw [(List.cons.inj heq).1])
      · exact fun s' heq => hplus s (by rw [(List.cons.inj heq).1])

theorem readExponent?_of_head {s : List Char} (h : ∀ c ∈ s.head?, c ≠ 'e' ∧ c ≠ 'E') :
    readExponent? s = some (none, s) := by
  unfold readExponent?
  split
  · exact absurd rfl (h 'e' rfl).1
  · exact absurd rfl (h 'E' rfl).2
  · rfl

theorem readExponent?_append {s r rest : List Char} {e : Option (Bool × List Char)}
    (h : readExponent? s = some (e, r)) (hrest : Stops rest) :
    readExponent? (s ++ rest) = some (e, r ++ rest) := by
  cases s with
  | nil =>
    obtain ⟨rfl, rfl⟩ := Prod.mk.inj (Option.some.inj h)
    exact readExponent?_of_head fun c hc => (hrest c hc).2.2
  | cons c s =>
    by_cases hc : c = 'e' ∨ c = 'E'
    · rcases hc with rfl | rfl <;> exact afterMark_append h hrest
    · have hmark : ∀ d ∈ (c :: s).head?, d ≠ 'e' ∧ d ≠ 'E' := by simpa using hc
      rw [readExponent?_of_head hmark] at h
      obtain ⟨rfl, rfl⟩ := Prod.mk.inj (Option.some.inj h)
      exact readExponent?_of_head hmark

/-- The sign of a number, and what follows it. -/
def splitSign (s : List Char) : Bool × List Char :=
  match s with
  | '-' :: s => (true, s)
  | s => (false, s)

theorem splitSign_of_head {s : List Char} (h : ∀ c ∈ s.head?, c ≠ '-') :
    splitSign s = (false, s) := by
  unfold splitSign
  split
  · exact absurd rfl (h '-' rfl)
  · rfl

theorem splitSign_append {s : List Char} (hs : s ≠ []) (rest : List Char) :
    splitSign (s ++ rest) = ((splitSign s).1, (splitSign s).2 ++ rest) := by
  obtain ⟨c, s, rfl⟩ := List.exists_cons_of_ne_nil hs
  by_cases hc : c = '-'
  · rw [hc]
    rfl
  · rw [splitSign_of_head (by simpa using hc), splitSign_of_head (by simpa using hc)]

theorem read?_eq_some_iff {s r : List Char} {t : NumberText} :
    read? s = some (t, r) ↔ ∃ s₁ s₂, (splitSign s).1 = t.negative ∧
      digits1? (splitSign s).2 = some (t.whole, s₁) ∧
      ¬(t.whole.head? = some '0' ∧ t.whole.length > 1) ∧
      readFraction? s₁ = some (t.fraction, s₂) ∧ readExponent? s₂ = some (t.exponent, r) := by
  have hread : read? s = (digits1? (splitSign s).2).bind fun first =>
      if first.1.head? = some '0' ∧ first.1.length > 1 then none
      else (readFraction? first.2).bind fun second => (readExponent? second.2).map fun last =>
        (⟨(splitSign s).1, first.1, second.1, last.1⟩, last.2) := by
    change (digits1? (splitSign s).2).bind _ = _
    congr 1
    funext first
    dsimp only
    split
    · rfl
    · change (readFraction? first.2).bind _ = _
      congr 1
      funext second
      cases readExponent? second.2 <;> rfl
  rw [hread, Option.bind_eq_some_iff]
  constructor
  · rintro ⟨⟨whole, s₁⟩, hwhole, h⟩
    dsimp only at h
    split at h
    · exact absurd h (by simp)
    · next hzero =>
      obtain ⟨⟨fraction, s₂⟩, hfraction, h⟩ := Option.bind_eq_some_iff.mp h
      obtain ⟨⟨exponent, r'⟩, hexponent, h⟩ := Option.map_eq_some_iff.mp h
      obtain ⟨rfl, rfl⟩ := Prod.mk.inj h
      exact ⟨s₁, s₂, rfl, hwhole, hzero, hfraction, hexponent⟩
  · rintro ⟨s₁, s₂, hsign, hwhole, hzero, hfraction, hexponent⟩
    refine ⟨_, hwhole, ?_⟩
    dsimp only
    rw [if_neg hzero, hfraction, Option.bind_some, hexponent, hsign]
    rfl

/-- A number is read to the same place when something follows that does not go on with it. -/
theorem read?_append {s r rest : List Char} {t : NumberText} (h : read? s = some (t, r))
    (hrest : Stops rest) : read? (s ++ rest) = some (t, r ++ rest) := by
  obtain ⟨s₁, s₂, hsign, hwhole, hzero, hfraction, hexponent⟩ := read?_eq_some_iff.mp h
  have hs : s ≠ [] := by
    rintro rfl
    exact absurd hwhole (by simp [splitSign, digits1?])
  refine read?_eq_some_iff.mpr ⟨s₁ ++ rest, s₂ ++ rest, ?_, ?_, hzero,
    readFraction?_append hfraction hrest, readExponent?_append hexponent hrest⟩
  · rw [splitSign_append hs, hsign]
  · rw [splitSign_append hs]
    exact digits1?_append hwhole hrest.not_digit

theorem exists_head_of_read? {s r : List Char} {t : NumberText} (h : read? s = some (t, r)) :
    ∃ c s', s = c :: s' ∧ (c = '-' ∨ c.isDigit = true) := by
  obtain ⟨s₁, s₂, -, hwhole, -⟩ := read?_eq_some_iff.mp h
  cases s with
  | nil => exact absurd hwhole (by simp [splitSign, digits1?])
  | cons c s' =>
    refine ⟨c, s', rfl, ?_⟩
    by_cases hc : c = '-'
    · exact .inl hc
    · rw [splitSign_of_head (by simpa using hc)] at hwhole
      cases hdigit : c.isDigit with
      | true => exact .inr rfl
      | false => exact absurd hwhole (by simp [digits1?, hdigit])

/-- A whole number in decimal. -/
def ofInt (n : Int) : NumberText := ⟨n < 0, Nat.toDigits 10 n.natAbs, none, none⟩

theorem digits1?_toDigits (n : Nat) :
    digits1? (Nat.toDigits 10 n) = some (Nat.toDigits 10 n, []) := by
  have htake :=
    takeWhile_append_of_head (toDigits_isDigit (n := n)) (show ∀ c ∈ [].head?, _ by simp)
  have hdrop :=
    dropWhile_append_of_head (toDigits_isDigit (n := n)) (show ∀ c ∈ [].head?, _ by simp)
  rw [List.append_nil] at htake hdrop
  simp [digits1?, htake, hdrop]

theorem read?_toString (n : Int) : read? (toString n).toList = some (ofInt n, []) := by
  have hdigits : ∀ k, splitSign (Nat.toDigits 10 k) = (false, Nat.toDigits 10 k) := by
    intro k
    refine splitSign_of_head fun c hc h => ?_
    have hdigit := toDigits_isDigit c (List.mem_of_mem_head? hc)
    exact absurd (h ▸ hdigit) (by decide)
  have hsign : splitSign (toString n).toList = (decide (n < 0), Nat.toDigits 10 n.natAbs) := by
    rw [toList_toString]
    split_ifs with hn
    · simp [splitSign, hn]
    · simp [hdigits, hn]
  refine read?_eq_some_iff.mpr ⟨[], [], ?_, ?_, toDigits_leadingZero _, rfl, rfl⟩
  · rw [hsign]
    rfl
  · rw [hsign]
    exact digits1?_toDigits _

end NumberText

end HttpCapture
