import HttpCapture.Cache.Freshness

/-! How the time that has passed grows. It is counted in whole seconds from a moment that the
calendar has. A leap second counts while it lasts and is forgotten afterwards, which shows where the
passed time began within a second. -/

namespace HttpCapture

theorem two_mul_roundSignificand_le (n : Nat) :
    2 * roundSignificand n ≤ 2 * n + Nat.pow 2 (n.log2 - 52) := by
  have hsplit := Nat.div_add_mod n (Nat.pow 2 (n.log2 - 52))
  rw [Nat.mul_comm] at hsplit
  unfold roundSignificand
  dsimp only
  split
  · omega
  · next hup =>
    rw [Nat.add_mul, Nat.one_mul]
    omega

theorem log2_lt_of_lt {n k : Nat} (hk : 0 < k) (h : n < Nat.pow 2 k) : n.log2 < k := by
  rcases Nat.eq_zero_or_pos n with rfl | hn
  · simpa using hk
  · exact (Nat.log2_lt (Nat.ne_of_gt hn)).mpr h

theorem roundSignificand_eq_self {n : Nat} (h : n < 0x20000000000000) : roundSignificand n = n := by
  have hlog : n.log2 < 53 := log2_lt_of_lt (by decide) h
  have hunit : Nat.pow 2 (n.log2 - 52) = 1 := by
    rw [show n.log2 - 52 = 0 by omega, Nat.pow_eq, Nat.pow_zero]
  unfold roundSignificand
  dsimp only
  rw [hunit]
  simp [Nat.mod_one]

namespace Timestamp

variable {t : Timestamp}

theorem denominator_pos (t : Timestamp) : 0 < t.denominator := Nat.two_pow_pos _

theorem mantissa_lt (bits : UInt64) : (BinaryParts.ofBits bits).mantissa < 0x20000000000000 := by
  have hfraction : bits.toNat % 0x10000000000000 < 0x10000000000000 := Nat.mod_lt _ (by decide)
  unfold BinaryParts.ofBits
  dsimp only
  split <;> dsimp only <;> omega

theorem fraction_lt (t : Timestamp) : t.fraction < t.denominator := by
  have hpos : (0 : Int) < t.denominator := Int.natCast_pos.mpr t.denominator_pos
  have hlt := Int.emod_lt_of_pos t.numerator hpos
  have hnonneg := Int.emod_nonneg t.numerator (Int.ne_of_gt hpos)
  unfold fraction
  omega

/-- A fraction that is kept whole stays short of a second. -/
theorem nanos_lt_of_fraction_lt (h : t.fraction < 0x20000000000000) : t.nanos < 1000000000 := by
  have hlt := t.fraction_lt
  have hround := two_mul_roundSignificand_le (t.fraction * 1000000000)
  have hpowers : Nat.pow 2 30 = 0x40000000 ∧ Nat.pow 2 83 = 0x800000000000000000000 := ⟨rfl, rfl⟩
  have hlog : (t.fraction * 1000000000).log2 < 83 := log2_lt_of_lt (by decide) (by omega)
  have hunit : Nat.pow 2 ((t.fraction * 1000000000).log2 - 52) ≤ Nat.pow 2 30 :=
    Nat.pow_le_pow_right (by decide) (by omega)
  rw [nanos, roundSignificand_eq_self h, Nat.div_lt_iff_lt_mul t.denominator_pos]
  omega

/-- Only the fraction of a time shortly before the epoch has more than 53 significant bits. -/
theorem wholeSeconds_of_le_fraction (h : 0x20000000000000 ≤ t.fraction) : t.wholeSeconds = -1 := by
  have hlt := t.fraction_lt
  have hmantissa := mantissa_lt t.bits
  have hexponent : (BinaryParts.ofBits t.bits).exponent.toNat = 0 := by
    refine Nat.eq_zero_of_not_pos fun hpos => ?_
    have hone : t.denominator = 1 := by
      rw [denominator, show (-(BinaryParts.ofBits t.bits).exponent).toNat = 0 by omega,
        Nat.pow_eq, Nat.pow_zero]
    omega
  have hsign : t.numerator = (BinaryParts.ofBits t.bits).mantissa ∨
      t.numerator = -((BinaryParts.ofBits t.bits).mantissa : Int) := by
    unfold numerator
    dsimp only
    rw [hexponent, Nat.pow_eq, Nat.pow_zero, Nat.mul_one]
    split
    · exact .inl rfl
    · exact .inr rfl
  -- As the denominator exceeds the mantissa, a positive time is its own fraction, and too small.
  have hlarge : (BinaryParts.ofBits t.bits).mantissa < t.denominator := by omega
  unfold fraction at h
  rcases hsign with hn | hn
  · rw [hn, Int.emod_eq_of_lt (by omega) (by omega)] at h
    omega
  · have hpos : 0 < (BinaryParts.ofBits t.bits).mantissa := by
      refine Nat.pos_of_ne_zero fun hzero => ?_
      rw [hn, hzero] at h
      simp at h
    rw [wholeSeconds, hn]
    exact ((Int.ediv_emod_unique
      (r := (t.denominator : Int) - (BinaryParts.ofBits t.bits).mantissa) (by omega)).mpr
        ⟨by omega, by omega, by omega⟩).1

end Timestamp

namespace Instant

/-- A moment that the calendar has: only a minute's last second can be a leap second. -/
def IsValid (t : Instant) : Prop := ofParts? t.seconds t.nanos = some t

instance (t : Instant) : Decidable t.IsValid := inferInstanceAs (Decidable (_ = _))

theorem ofParts?_eq_some {seconds : Int} {nanos : Nat} {t : Instant}
    (h : ofParts? seconds nanos = some t) : t = ⟨seconds, nanos⟩ ∧ firstSecond ≤ seconds ∧
      seconds ≤ lastSecond ∧ nanos < 2000000000 ∧ (nanos < 1000000000 ∨ seconds % 60 = 59) := by
  unfold ofParts? at h
  split at h
  · next hparts => exact ⟨(Option.some.inj h).symm, hparts⟩
  · cases h

theorem IsValid.bounds {t : Instant} (h : t.IsValid) :
    firstSecond ≤ t.seconds ∧ t.seconds ≤ lastSecond ∧ t.nanos < 2000000000 ∧
      (t.nanos < 1000000000 ∨ t.seconds % 60 = 59) :=
  (ofParts?_eq_some h).2

theorem ofTimestamp_bounds (t : Timestamp) : firstSecond ≤ (ofTimestamp t).seconds ∧
    (ofTimestamp t).seconds ≤ lastSecond ∧ (ofTimestamp t).nanos < 2000000000 := by
  unfold ofTimestamp
  cases h : ofParts? t.wholeSeconds t.nanos with
  | none => decide
  | some i =>
    obtain ⟨rfl, hfirst, hlast, hnanos, -⟩ := ofParts?_eq_some h
    exact ⟨hfirst, hlast, hnanos⟩

/-- A capture time is in no leap second but the one in front of the epoch. -/
theorem ofTimestamp_spec (t : Timestamp) : firstSecond ≤ (ofTimestamp t).seconds ∧
    ((ofTimestamp t).nanos < 1000000000 ∨ (ofTimestamp t).seconds = -1) := by
  unfold ofTimestamp
  cases h : ofParts? t.wholeSeconds t.nanos with
  | none => decide
  | some i =>
    obtain ⟨rfl, hfirst, -⟩ := ofParts?_eq_some h
    refine ⟨hfirst, ?_⟩
    rcases Nat.lt_or_ge t.fraction 0x20000000000000 with hfraction | hfraction
    · exact .inl (Timestamp.nanos_lt_of_fraction_lt hfraction)
    · exact .inr (Timestamp.wholeSeconds_of_le_fraction hfraction)

@[simp] theorem lt_eq_true {a b : Instant} : a.lt b = true ↔
    a.seconds < b.seconds ∨ a.seconds = b.seconds ∧ a.nanos < b.nanos := by
  simp [lt]

@[simp] theorem lt_eq_false {a b : Instant} : a.lt b = false ↔
    b.seconds < a.seconds ∨ b.seconds = a.seconds ∧ b.nanos ≤ a.nanos := by
  rw [← Bool.not_eq_true, lt_eq_true]
  omega

end Instant

@[simp] theorem Span.lt_eq_true {a b : Span} : a.lt b = true ↔
    a.seconds < b.seconds ∨ a.seconds = b.seconds ∧ a.nanos < b.nanos := by
  simp [lt]

namespace Instant

/-- The whole seconds passed. The leap second that `t` lies in is not counted if it comes earlier in
its day than `base` in its own. -/
theorem since_seconds {t base : Instant} (hbase : base.nanos < 1000000000 ∨ base.seconds = -1) :
    (t.since base).seconds =
      t.seconds - base.seconds + ((t.nanos : Int) - base.nanos) / 1000000000 -
        if t.seconds % 86400 < base.seconds % 86400 ∧ t.nanos ≥ 1000000000 then 1 else 0 := by
  have hnotBehind : ¬(t.seconds % 86400 > base.seconds % 86400 ∧ base.nanos ≥ 1000000000) := by
    omega
  simp only [since, if_neg hnotBehind]
  split <;> omega

/-- Capture times are less than the longest span apart. -/
theorem since_lt_longest (t base : Timestamp) :
    ((ofTimestamp t).since (ofTimestamp base)).lt .longest = true := by
  have ht := ofTimestamp_bounds t
  have hbase := ofTimestamp_bounds base
  have hpassed := since_seconds (t := ofTimestamp t) (ofTimestamp_spec base).2
  simp only [firstSecond, lastSecond] at ht hbase
  rw [Span.lt_eq_true, Span.longest]
  dsimp only
  omega

/-- Time passed reaches an assumed lifetime when its whole seconds do. -/
theorem since_lt_ofSeconds {now base : Instant} (hnow : now.IsValid)
    (hfirst : firstSecond ≤ base.seconds) (hbase : base.nanos < 1000000000 ∨ base.seconds = -1)
    {assumed : Int} (hassumed : 0 ≤ assumed) :
    (now.since base).lt (Span.ofSeconds assumed) = true ↔ (now.since base).seconds < assumed := by
  obtain ⟨-, hlast, hnanos, -⟩ := hnow.bounds
  have hpassed := since_seconds (t := now) hbase
  simp only [firstSecond, lastSecond] at hfirst hlast
  rw [Span.lt_eq_true, Span.ofSeconds]
  split
  · dsimp only
    omega
  · simp only [Span.longest]
    omega

/-- No border of a leap second lies between two moments that are close to each other. -/
structure CountAlike (t₁ t₂ : Instant) : Prop where
  /-- The later moment is not in the second after the leap second of the earlier one. -/
  ended : 1000000000 ≤ t₁.nanos → t₂.nanos < 1000000000 → t₂.seconds ≠ t₁.seconds + 1
  /-- The later moment is not in the leap second of the very second of the earlier one. -/
  begun : t₁.nanos < 1000000000 → 1000000000 ≤ t₂.nanos → t₂.seconds ≠ t₁.seconds

/-- The whole seconds passed do not fall as time goes on, if they are counted from a whole second or
across no border of a leap second. -/
theorem since_seconds_mono {now₁ now₂ base : Instant} (h₁ : now₁.IsValid) (h₂ : now₂.IsValid)
    (hle : now₂.lt now₁ = false) (hbase : base.nanos < 1000000000 ∨ base.seconds = -1)
    (hsteady : base.nanos = 0 ∨ now₁.CountAlike now₂) :
    (now₁.since base).seconds ≤ (now₂.since base).seconds := by
  obtain ⟨-, -, hnanos₁, hleap₁⟩ := h₁.bounds
  obtain ⟨-, -, hnanos₂, hleap₂⟩ := h₂.bounds
  rw [lt_eq_false] at hle
  rw [since_seconds hbase, since_seconds hbase]
  -- Two leap seconds are a minute apart, and of one alone no more than two seconds can be missing.
  rcases hsteady with hwhole | ⟨hended, hbegun⟩
  · rw [hwhole]
    split <;> split <;> omega
  · split <;> split <;> omega

theorem eq_of_not_lt {a b : Instant} (hab : a.lt b = false) (hba : b.lt a = false) : a = b := by
  rw [lt_eq_false] at hab hba
  cases a
  cases b
  simp only [mk.injEq] at *
  omega

end Instant

end HttpCapture
