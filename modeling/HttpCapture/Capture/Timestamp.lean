import HttpCapture.Decimal.Shortest

/-! Capture times. A timestamp is a binary64 count of seconds since the start of 1970, kept by its
bits so that two of them can be compared and told apart without going through floating point. -/

namespace HttpCapture

/-- A whole number rounded to the 53 significant bits that binary64 has; of two neighbours equally
near the one with the even last bit is taken. -/
def roundSignificand (n : Nat) : Nat :=
  let unit := Nat.pow 2 (n.log2 - 52)
  let low := n / unit
  let twice := 2 * (n % unit)
  (if twice < unit ∨ twice = unit ∧ low % 2 = 0 then low else low + 1) * unit

structure Timestamp where
  bits : UInt64
  deriving DecidableEq, Repr, Inhabited

namespace Timestamp

def zero : Timestamp := ⟨0⟩

def toFloat (t : Timestamp) : Float := Float.ofBits t.bits

/-- The place of a timestamp in the total order of binary64: negative values below positive ones,
zero after minus zero, and not-a-number at the far ends. -/
def rank (t : Timestamp) : Int :=
  let n : Int := t.bits.toNat
  if n < 0x8000000000000000 then n else 0x7fffffffffffffff - n

/-- Seconds from `s` to `t`, none of them negative. -/
def since (t s : Timestamp) : Float :=
  let d := t.toFloat - s.toFloat
  if d > 0 then d else 0

/-- A timestamp is a whole number over a power of two. Infinities and not-a-number count as values
beyond the largest finite one. -/
def numerator (t : Timestamp) : Int :=
  let p := BinaryParts.ofBits t.bits
  let n := p.mantissa * Nat.pow 2 p.exponent.toNat
  if t.bits.toNat < 0x8000000000000000 then n else -n

def denominator (t : Timestamp) : Nat := Nat.pow 2 (-(BinaryParts.ofBits t.bits).exponent).toNat

/-- The whole seconds at or before the time. -/
def wholeSeconds (t : Timestamp) : Int := t.numerator / t.denominator

/-- What the time is past its whole seconds, over the denominator. -/
def fraction (t : Timestamp) : Nat := (t.numerator % t.denominator).toNat

/-- The nanoseconds past the whole seconds, cut to a whole number. The fraction and its product are
both rounded before, so that a time just before a second may have all thousand million of them. -/
def nanos (t : Timestamp) : Nat :=
  roundSignificand (roundSignificand t.fraction * 1000000000) / t.denominator

end Timestamp

/-- A point in time. The nanoseconds run up to two thousand million in a leap second. -/
structure Instant where
  seconds : Int
  nanos : Nat
  deriving DecidableEq, Repr

namespace Instant

def epoch : Instant := ⟨0, 0⟩

def lt (a b : Instant) : Bool :=
  a.seconds < b.seconds || (a.seconds == b.seconds && a.nanos < b.nanos)

/-- Years beyond about 262000 on either side are out of range. -/
def firstSecond : Int := -8334601228800

def lastSecond : Int := 8210266876799

def latest : Instant := ⟨lastSecond, 999999999⟩

/-- Only the last second of a minute can be a leap second. -/
def ofParts? (seconds : Int) (nanos : Nat) : Option Instant :=
  if firstSecond ≤ seconds ∧ seconds ≤ lastSecond ∧ nanos < 2000000000 ∧
      (nanos < 1000000000 ∨ seconds % 60 = 59) then some ⟨seconds, nanos⟩
  else none

/-- The instant of a capture time, cut to whole nanoseconds. A time out of range, or none at all,
counts as the epoch. -/
def ofTimestamp (t : Timestamp) : Instant := (ofParts? t.wholeSeconds t.nanos).getD epoch

end Instant

/-- A signed span of time; the nanoseconds are below a thousand million and count upwards. -/
structure Span where
  seconds : Int
  nanos : Nat
  deriving DecidableEq, Repr

namespace Span

def lt (a b : Span) : Bool :=
  a.seconds < b.seconds || (a.seconds == b.seconds && a.nanos < b.nanos)

/-- The longest span, a 63-bit count of milliseconds. -/
def longest : Span := ⟨9223372036854775, 807000000⟩

/-- A span of whole seconds; one too long for either sign counts as the longest. -/
def ofSeconds (n : Int) : Span :=
  if -9223372036854776 < n ∧ n ≤ 9223372036854775 then ⟨n, 0⟩ else longest

end Span

/-- The span from `base` to `t`. A leap second strictly inside the day between the two counts. -/
def Instant.since (t base : Instant) : Span :=
  let clock := t.seconds % 86400
  let baseClock := base.seconds % 86400
  let leap : Int :=
    if clock > baseClock ∧ base.nanos ≥ 1000000000 then 1
    else if clock < baseClock ∧ t.nanos ≥ 1000000000 then -1
    else 0
  let nanos : Int := (t.nanos : Int) - base.nanos
  ⟨t.seconds - base.seconds + leap + nanos / 1000000000, (nanos % 1000000000).toNat⟩

end HttpCapture
