import HttpCapture.Capture.Address
import HttpCapture.Proofs.WrittenText
import Mathlib.Data.List.Basic

/-! The text of a network address reads back as the address. What is left out of an address of eight
groups is a run of zeros, so the reader fills the gap with as many zeros as groups are missing. -/

namespace HttpCapture

section Front

variable {α : Type} {p : α → Bool} {xs rest : List α}

theorem takeWhile_of_head (hr : ∀ x ∈ rest.head?, p x = false) : rest.takeWhile p = [] := by
  cases rest with
  | nil => rfl
  | cons x rest => simp [hr x rfl]

theorem takeWhile_append_of_head (hx : ∀ x ∈ xs, p x = true) (hr : ∀ x ∈ rest.head?, p x = false) :
    (xs ++ rest).takeWhile p = xs := by
  rw [List.takeWhile_append_of_pos hx, takeWhile_of_head hr, List.append_nil]

theorem dropWhile_append_of_head (hx : ∀ x ∈ xs, p x = true) (hr : ∀ x ∈ rest.head?, p x = false) :
    (xs ++ rest).dropWhile p = rest := by
  rw [List.dropWhile_append_of_pos hx, dropWhile_of_head hr]

end Front

theorem after?_append {α : Type} [BEq α] [LawfulBEq α] (start rest : List α) :
    after? start (start ++ rest) = some rest := by
  simp [after?, List.isPrefixOf_iff_prefix]

theorem toDigits_isDigit {n : Nat} : ∀ c ∈ Nat.toDigits 10 n, c.isDigit = true :=
  fun _ hc => Nat.isDigit_of_mem_toDigits (by decide) (by decide) hc

theorem foldl_toDigits (n : Nat) :
    (Nat.toDigits 10 n).foldl (fun n c => n * 10 + (c.toNat - 48)) 0 = n := by
  have hvalue : Nat.ofDigitChars 10 (Nat.toDigits 10 n) 0 = n := Nat.ofDigitChars_ten_toDigits
  simpa [Nat.ofDigitChars_eq_foldl, Nat.mul_comm] using hvalue

theorem head?_toDigits {n : Nat} (h : 0 < n) : (Nat.toDigits 10 n).head? ≠ some '0' := by
  induction n using Nat.base_induction 10 (by decide) with
  | single m hm =>
    rw [Nat.toDigits_of_lt_base hm]
    simpa using Nat.ne_of_gt h
  | digit m k hk hm ih =>
    have hhead := ih hm
    rw [← Nat.toDigits_append_toDigits (by decide) hm hk, List.head?_append]
    cases hd : Nat.toDigits 10 m with
    | nil => simp at hd
    | cons c cs => simpa [hd] using hhead

theorem toDigits_leadingZero (n : Nat) :
    ¬((Nat.toDigits 10 n).head? = some '0' ∧ (Nat.toDigits 10 n).length > 1) := by
  rintro ⟨hhead, hlong⟩
  rcases Nat.eq_zero_or_pos n with rfl | hn
  · exact absurd hlong (by decide)
  · exact head?_toDigits hn hhead

namespace IpAddress

theorem readOctet?_decimalText (a : UInt8) {rest : List Char}
    (hr : ∀ c ∈ rest.head?, c.isDigit = false) :
    readOctet? (decimalText a.toNat ++ rest) = some (a, rest) := by
  have hlt : a.toNat < 256 := a.toNat_lt_size
  have hpos : 0 < (Nat.toDigits 10 a.toNat).length := Nat.length_toDigits_pos
  have hlength : (Nat.toDigits 10 a.toNat).length ≤ 3 :=
    (Nat.length_toDigits_le_iff (by decide) (by decide)).mpr (by omega)
  unfold readOctet? decimalText
  simp only [takeWhile_append_of_head toDigits_isDigit hr, foldl_toDigits]
  rw [if_neg (by omega), if_neg (toDigits_leadingZero a.toNat), List.drop_left]
  simp

theorem readDotted?_dottedText (a b c d : UInt8) {rest : List Char}
    (hr : ∀ c ∈ rest.head?, c.isDigit = false) :
    readDotted? (dottedText a b c d ++ rest) = some (a, b, c, d, rest) := by
  have hdot : ∀ (x : UInt8) (s : List Char),
      readOctet? (decimalText x.toNat ++ '.' :: s) = some (x, '.' :: s) :=
    fun x s => readOctet?_decimalText x (by simp)
  have hafter : ∀ s : List Char, after? ['.'] ('.' :: s) = some s := after?_append ['.']
  simp [readDotted?, dottedText, hdot, hafter, readOctet?_decimalText d hr]

theorem readDotted?_dottedText_end (a b c d : UInt8) :
    readDotted? (dottedText a b c d) = some (a, b, c, d, []) := by
  have hread := readDotted?_dottedText a b c d (show ∀ c ∈ ([] : List Char).head?, _ by simp)
  rwa [List.append_nil] at hread

/-- Without a point there is nothing in dotted form. -/
theorem readDotted?_of_not_mem {s : List Char} (h : '.' ∉ s) : readDotted? s = none := by
  unfold readDotted?
  cases ho : readOctet? s with
  | none => rfl
  | some o =>
    obtain ⟨a, t⟩ := o
    have ht : t = s.drop (s.takeWhile Char.isDigit).length := by
      unfold readOctet? at ho
      dsimp only at ho
      split at ho
      · exact absurd ho (by simp)
      · split at ho
        · exact absurd ho (by simp)
        · simpa using congrArg Prod.snd (Option.some.inj ho).symm
    have hafter : after? ['.'] t = none := by
      have hnot : ¬(['.'].isPrefixOf t = true) := by
        intro hprefix
        have hmem := (List.isPrefixOf_iff_prefix.mp hprefix).subset List.mem_cons_self
        exact h (List.mem_of_mem_drop (ht ▸ hmem))
      rw [after?, if_neg hnot]
    simp [hafter]

theorem readOctet?_of_head {s : List Char} (h : ∀ c ∈ s.head?, c.isDigit = false) :
    readOctet? s = none := by
  simp [readOctet?, takeWhile_of_head h]

theorem readDotted?_of_head {s : List Char} (h : ∀ c ∈ s.head?, c.isDigit = false) :
    readDotted? s = none := by
  simp [readDotted?, readOctet?_of_head h]

theorem hexCharValue?_digitChar : ∀ d < 16, hexCharValue? (Nat.digitChar d) = some d := by decide

theorem exists_of_mem_hexText {n : Nat} : ∀ c ∈ hexText n, ∃ d < 16, c = Nat.digitChar d := by
  unfold hexText
  induction n using Nat.base_induction 16 (by decide) with
  | single m hm =>
    rw [Nat.toDigits_of_lt_base hm]
    exact fun c hc => ⟨m, hm, List.mem_singleton.mp hc⟩
  | digit m k hk hm ih =>
    rw [← Nat.toDigits_append_toDigits (by decide) hm hk, Nat.toDigits_of_lt_base hk]
    intro c hc
    rcases List.mem_append.mp hc with hc | hc
    · exact ih c hc
    · exact ⟨k, hk, List.mem_singleton.mp hc⟩

theorem foldl_hexText (n : Nat) :
    ((hexText n).filterMap hexCharValue?).foldl (· * 16 + ·) 0 = n := by
  unfold hexText
  induction n using Nat.base_induction 16 (by decide) with
  | single m hm => simp [Nat.toDigits_of_lt_base hm, hexCharValue?_digitChar m hm]
  | digit m k hk hm ih =>
    rw [← Nat.toDigits_append_toDigits (by decide) hm hk, Nat.toDigits_of_lt_base hk,
      List.filterMap_append, List.foldl_append, ih]
    simp [hexCharValue?_digitChar k hk, Nat.mul_comm]

theorem hexText_isSome {n : Nat} : ∀ c ∈ hexText n, (hexCharValue? c).isSome = true := by
  intro c hc
  obtain ⟨d, hd, rfl⟩ := exists_of_mem_hexText c hc
  simp [hexCharValue?_digitChar d hd]

theorem readGroup?_hexText (g : UInt16) {rest : List Char}
    (hr : ∀ c ∈ rest.head?, (hexCharValue? c).isSome = false) :
    readGroup? (hexText g.toNat ++ rest) = some (g, rest) := by
  have hlt : g.toNat < 16 ^ 4 := g.toNat_lt_size
  have hpos : 0 < (hexText g.toNat).length := Nat.length_toDigits_pos
  have hlength : (hexText g.toNat).length ≤ 4 :=
    (Nat.length_toDigits_le_iff (by decide) (by decide)).mpr hlt
  unfold readGroup?
  simp only [takeWhile_append_of_head hexText_isSome hr, foldl_hexText]
  rw [if_neg (by omega), List.drop_left]
  simp

/-- Groups with a colon in front of each. -/
def colonText (gs : List UInt16) : List Char := gs.flatMap fun g => ':' :: hexText g.toNat

theorem groupsText_cons (g : UInt16) (gs : List UInt16) :
    groupsText (g :: gs) = hexText g.toNat ++ colonText gs := by
  induction gs generalizing g with
  | nil => simp [groupsText, colonText]
  | cons g' gs ih =>
    have hsplit : groupsText (g :: g' :: gs) = hexText g.toNat ++ ':' :: groupsText (g' :: gs) := by
      simp [groupsText, List.intercalate]
    rw [hsplit, ih g']
    simp [colonText]

/-- Nothing more of a row of groups: the end, or the gap. -/
def EndsGroups (rest : List Char) : Prop := rest = [] ∨ ∃ back, rest = ':' :: ':' :: back

theorem EndsGroups.head {rest : List Char} (h : EndsGroups rest) : ∀ c ∈ rest.head?, c = ':' := by
  rcases h with rfl | ⟨back, rfl⟩
  · simp
  · simp

theorem head?_colonText_append {gs : List UInt16} {rest : List Char} (h : EndsGroups rest) :
    ∀ c ∈ (colonText gs ++ rest).head?, c = ':' := by
  cases gs with
  | nil => simpa [colonText] using h.head
  | cons g gs => simp [colonText]

theorem point_not_mem_hexText (n : Nat) : '.' ∉ hexText n := by
  intro h
  have hsome := hexText_isSome '.' h
  exact absurd hsome (by decide)

theorem point_not_mem_colonText (gs : List UInt16) : '.' ∉ colonText gs := by
  simp [colonText, point_not_mem_hexText]

theorem point_not_mem_groupsText (gs : List UInt16) : '.' ∉ groupsText gs := by
  cases gs with
  | nil => simp [groupsText, List.intercalate]
  | cons g gs =>
    rw [groupsText_cons]
    simp [point_not_mem_hexText, point_not_mem_colonText]

theorem readGroup?_of_head {s : List Char} (h : ∀ c ∈ s.head?, (hexCharValue? c).isSome = false) :
    readGroup? s = none := by
  simp [readGroup?, takeWhile_of_head h]

/-- Not even a first group is read where a row of groups has ended. -/
theorem readGroups_of_ends {rest : List Char} (h : EndsGroups rest) (first : Bool) (limit : Nat) :
    readGroups first limit rest = ([], false, rest) := by
  have hblocked : ∀ s : List Char, (∀ c ∈ s.head?, c = ':') →
      readDotted? s = none ∧ readGroup? s = none := by
    intro s hs
    refine ⟨readDotted?_of_head fun c hc => ?_, readGroup?_of_head fun c hc => ?_⟩
    · rw [hs c hc]
      decide
    · rw [hs c hc]
      decide
  cases limit with
  | zero => rfl
  | succ limit =>
    cases first with
    | true => simp [readGroups, hblocked rest h.head]
    | false =>
      rcases h with rfl | ⟨back, rfl⟩
      · rfl
      · have hafter : after? [':'] (':' :: ':' :: back) = some (':' :: back) :=
          after?_append [':'] _
        simp [readGroups, hafter, hblocked (':' :: back) (by simp)]

theorem readGroups_hexText {first : Bool} {s : List Char} (g : UInt16) (gs : List UInt16)
    {rest : List Char} {limit : Nat} (hrest : EndsGroups rest) (hpoint : '.' ∉ rest)
    (hs : (if first then some s else after? [':'] s) =
      some (hexText g.toNat ++ (colonText gs ++ rest)))
    (ih : readGroups false limit (colonText gs ++ rest) = (gs, false, rest)) :
    readGroups first (limit + 1) s = (g :: gs, false, rest) := by
  have hdotted : readDotted? (hexText g.toNat ++ (colonText gs ++ rest)) = none := by
    apply readDotted?_of_not_mem
    simp [point_not_mem_hexText, point_not_mem_colonText, hpoint]
  have hgroup : readGroup? (hexText g.toNat ++ (colonText gs ++ rest)) =
      some (g, colonText gs ++ rest) := by
    refine readGroup?_hexText g fun c hc => ?_
    rw [head?_colonText_append hrest c hc]
    decide
  rw [readGroups, hs]
  simp [hdotted, hgroup, ih]

theorem readGroups_colonText {gs : List UInt16} {rest : List Char} {limit : Nat}
    (hlimit : gs.length ≤ limit) (hrest : EndsGroups rest) (hpoint : '.' ∉ rest) :
    readGroups false limit (colonText gs ++ rest) = (gs, false, rest) := by
  induction gs generalizing limit with
  | nil => exact readGroups_of_ends hrest false limit
  | cons g gs ih =>
    cases limit with
    | zero => simp at hlimit
    | succ limit =>
      refine readGroups_hexText g gs hrest hpoint ?_ (ih (by simpa using hlimit))
      simpa [colonText] using after?_append [':'] (hexText g.toNat ++ (colonText gs ++ rest))

theorem readGroups_groupsText {gs : List UInt16} {rest : List Char} {limit : Nat}
    (hlimit : gs.length ≤ limit) (hrest : EndsGroups rest) (hpoint : '.' ∉ rest) :
    readGroups true limit (groupsText gs ++ rest) = (gs, false, rest) := by
  cases gs with
  | nil => exact readGroups_of_ends hrest true limit
  | cons g gs =>
    cases limit with
    | zero => simp at hlimit
    | succ limit =>
      have hgs : gs.length ≤ limit := by simpa using hlimit
      refine readGroups_hexText g gs hrest hpoint ?_ (readGroups_colonText hgs hrest hpoint)
      simp [groupsText_cons]

/-- A run of zeros in a list, by its start and its length. -/
structure IsZeroRun (gs : List UInt16) (run : Nat × Nat) : Prop where
  bound : run.1 + run.2 ≤ gs.length
  zeros : ∀ i, run.1 ≤ i → i < run.1 + run.2 → gs[i]? = some 0

namespace IsZeroRun

variable {gs : List UInt16} {run : Nat × Nat}

theorem empty (gs : List UInt16) : IsZeroRun gs (0, 0) :=
  ⟨Nat.zero_le _, fun i _ hi => absurd hi (by simp)⟩

theorem append (h : IsZeroRun gs run) (more : List UInt16) : IsZeroRun (gs ++ more) run := by
  refine ⟨?_, fun i hfirst hlast => ?_⟩
  · have := h.bound
    rw [List.length_append]
    omega
  · exact List.getElem?_append_left (Nat.lt_of_lt_of_le hlast h.bound) ▸ h.zeros i hfirst hlast

theorem extend {start count : Nat} (h : IsZeroRun gs (start, count))
    (hend : start + count = gs.length) : IsZeroRun (gs ++ [0]) (start, count + 1) := by
  refine ⟨by simp; omega, fun i hfirst hlast => ?_⟩
  dsimp only at hfirst hlast
  by_cases hi : i < gs.length
  · rw [List.getElem?_append_left hi]
    exact h.zeros i hfirst (by dsimp only; omega)
  · obtain rfl : i = gs.length := by omega
    simp

theorem split {start count : Nat} (h : IsZeroRun gs (start, count)) :
    gs.take start ++ List.replicate count 0 ++ gs.drop (start + count) = gs := by
  have hbound := h.bound
  dsimp only at hbound
  have hrun : List.replicate count 0 = (gs.drop start).take count := by
    refine List.ext_getElem? fun i => ?_
    by_cases hi : i < count
    · rw [List.getElem?_replicate_of_lt hi, List.getElem?_take_of_lt hi, List.getElem?_drop,
        h.zeros (start + i) (by simp) (by simp [hi])]
    · rw [List.getElem?_eq_none (by simp; omega), List.getElem?_eq_none (by simp; omega)]
  rw [hrun, List.append_assoc, ← List.drop_drop, List.take_append_drop, List.take_append_drop]

end IsZeroRun

theorem isZeroRun_longestZeroRun {pre gs : List UInt16} {current best : Nat × Nat}
    (hcurrent : IsZeroRun pre current) (hend : current.2 ≠ 0 → current.1 + current.2 = pre.length)
    (hbest : IsZeroRun pre best) :
    IsZeroRun (pre ++ gs) (longestZeroRun pre.length current best gs) := by
  induction gs generalizing pre current best with
  | nil => simpa [longestZeroRun] using hbest
  | cons g gs ih =>
    have hlength : (pre ++ [g]).length = pre.length + 1 := by simp
    have hsplit : pre ++ g :: gs = pre ++ [g] ++ gs := by simp
    rw [hsplit, longestZeroRun, ← hlength]
    by_cases hg : g = 0
    · subst hg
      -- A zero opens a run of its own or makes the run that ends here longer by one.
      have hnext : ∃ start count, (if current.2 = 0 then (pre.length, 1) else
          (current.1, current.2 + 1)) = (start, count + 1) ∧
          IsZeroRun pre (start, count) ∧ start + count = pre.length := by
        by_cases hnone : current.2 = 0
        · exact ⟨pre.length, 0, by simp [hnone],
            ⟨by simp, fun i hf hl => by simp at hf hl; omega⟩, rfl⟩
        · exact ⟨current.1, current.2, by simp [hnone], hcurrent, hend hnone⟩
      obtain ⟨start, count, hrun, hzero, hstop⟩ := hnext
      rw [if_pos rfl, hrun]
      refine ih (hzero.extend hstop) (fun _ => by simp; omega) ?_
      split
      · exact hzero.extend hstop
      · exact hbest.append [0]
    · rw [if_neg hg]
      exact ih (IsZeroRun.empty _) (fun h => absurd rfl h) (hbest.append [g])

theorem readGrouped?_groupsText {gs : List UInt16} (h : gs.length = 8) :
    readGrouped? (groupsText gs) = some (gs, []) := by
  have hread : readGroups true 8 (groupsText gs) = (gs, false, []) := by
    simpa using readGroups_groupsText (Nat.le_of_eq h) (.inl rfl) List.not_mem_nil
  simp [readGrouped?, hread, h]

theorem readGrouped?_gap {front back : List UInt16} (h : front.length + back.length < 8) :
    readGrouped? (groupsText front ++ ':' :: ':' :: groupsText back) =
      some (front ++ List.replicate (8 - front.length - back.length) 0 ++ back, []) := by
  have hpoint : '.' ∉ ':' :: ':' :: groupsText back := by simp [point_not_mem_groupsText]
  have hfront : readGroups true 8 (groupsText front ++ ':' :: ':' :: groupsText back) =
      (front, false, ':' :: ':' :: groupsText back) :=
    readGroups_groupsText (by omega) (.inr ⟨_, rfl⟩) hpoint
  have hback : readGroups true (7 - front.length) (groupsText back) = (back, false, []) := by
    simpa using readGroups_groupsText (by omega) (.inl rfl) List.not_mem_nil
  have hafter : after? [':', ':'] (':' :: ':' :: groupsText back) = some (groupsText back) :=
    after?_append [':', ':'] _
  have hlength : front.length ≠ 8 := by omega
  simp [readGrouped?, hfront, hlength, hafter, hback]

theorem toUInt16_parts (x : UInt16) :
    (x / 256).toUInt8.toUInt16 * 256 + x.toUInt8.toUInt16 = x := by
  apply UInt16.toNat_inj.mp
  have hlt : x.toNat < 65536 := x.toNat_lt_size
  simp
  omega

/-- The groups of an address that embeds one of four octets. -/
theorem readGrouped?_embedded (a b c d : UInt8) :
    readGrouped? ("::ffff:".toList ++ dottedText a b c d) =
      some ([0, 0, 0, 0, 0, 0xffff, a.toUInt16 * 256 + b.toUInt16, c.toUInt16 * 256 + d.toUInt16],
        []) := by
  have hlast : readGroups false 6 (':' :: dottedText a b c d) =
      ([a.toUInt16 * 256 + b.toUInt16, c.toUInt16 * 256 + d.toUInt16], true, []) := by
    have hafter : after? [':'] (':' :: dottedText a b c d) = some (dottedText a b c d) :=
      after?_append [':'] _
    simp [readGroups, hafter, readDotted?_dottedText_end]
  have hback : readGroups true 7 ("ffff".toList ++ ':' :: dottedText a b c d) =
      ([0xffff, a.toUInt16 * 256 + b.toUInt16, c.toUInt16 * 256 + d.toUInt16], true, []) := by
    have hnone : readDotted? ("ffff".toList ++ ':' :: dottedText a b c d) = none :=
      readDotted?_of_head (by simp)
    have hgroup : readGroup? ("ffff".toList ++ ':' :: dottedText a b c d) =
        some (0xffff, ':' :: dottedText a b c d) := readGroup?_hexText 0xffff (by simp; decide)
    rw [readGroups, if_pos rfl]
    dsimp only
    rw [if_neg (by decide), hnone]
    dsimp only
    rw [hgroup]
    dsimp only
    rw [hlast]
  have hfront : readGroups true 8 (':' :: ':' :: ("ffff".toList ++ ':' :: dottedText a b c d)) =
      ([], false, ':' :: ':' :: ("ffff".toList ++ ':' :: dottedText a b c d)) :=
    readGroups_of_ends (.inr ⟨_, rfl⟩) true 8
  have hafter : after? [':', ':'] (':' :: ':' :: ("ffff".toList ++ ':' :: dottedText a b c d)) =
      some ("ffff".toList ++ ':' :: dottedText a b c d) := after?_append [':', ':'] _
  have htext : "::ffff:".toList ++ dottedText a b c d =
      ':' :: ':' :: ("ffff".toList ++ ':' :: dottedText a b c d) := by simp
  rw [htext, readGrouped?, hfront]
  dsimp only
  rw [if_neg (by decide), if_neg (by decide), hafter, Option.map_some]
  rw [List.length_nil, Nat.sub_zero, hback]
  rfl

theorem read?_of_grouped {s : List Char} {groups : Vector UInt16 8} (hdotted : readDotted? s = none)
    (h : readGrouped? s = some (groups.toList, [])) : read? s = some (.v6 groups) := by
  obtain ⟨gs, hgs⟩ := groups
  rw [read?, hdotted, h]
  simpa using hgs

/-- The text of every address reads back. -/
theorem read?_text (a : IpAddress) : read? a.text = some a := by
  cases a with
  | v4 a b c d => simp [text, read?, readDotted?_dottedText_end]
  | v6 groups =>
    have hlength : groups.toList.length = 8 := by simp
    unfold text
    dsimp only
    split
    · next x y hgroups =>
      refine read?_of_grouped (readDotted?_of_head (by simp)) ?_
      rw [readGrouped?_embedded, hgroups, toUInt16_parts, toUInt16_parts]
    · have hrun : IsZeroRun groups.toList (longestZeroRun 0 (0, 0) (0, 0) groups.toList) :=
        isZeroRun_longestZeroRun (IsZeroRun.empty []) (fun h => absurd rfl h) (IsZeroRun.empty [])
      generalize longestZeroRun 0 (0, 0) (0, 0) groups.toList = run at hrun
      obtain ⟨start, count⟩ := run
      dsimp only
      split
      · next hcount =>
        have hbound := hrun.bound
        dsimp only at hbound
        have hpoint : '.' ∉ groupsText (groups.toList.take start) ++
            ':' :: ':' :: groupsText (groups.toList.drop (start + count)) := by
          simp [point_not_mem_groupsText]
        refine read?_of_grouped (readDotted?_of_not_mem hpoint) ?_
        have hgap : (groups.toList.take start).length +
            (groups.toList.drop (start + count)).length = 8 - count := by simp; omega
        rw [readGrouped?_gap (by omega), Nat.sub_sub, hgap, Nat.sub_sub_self (by omega), hrun.split]
      · refine read?_of_grouped (readDotted?_of_not_mem (point_not_mem_groupsText _)) ?_
        exact readGrouped?_groupsText hlength

end IpAddress

end HttpCapture
