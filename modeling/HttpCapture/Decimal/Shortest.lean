/-! The shortest decimal that reads back as a given binary64 value. A finite value is `m * 2 ^ q`;
the numbers that round to it form an interval around it, closed when `m` is even. Among the decimals
of `n` digits only the value's two neighbours on that grid can lie in the interval, so the search
tries them for one digit, two digits and so on. -/

namespace HttpCapture

/-- Decimal digits `d` with the point after `exponent` places: the number `d * 10 ^ exponent`. -/
structure DecimalDigits where
  digits : Nat
  exponent : Int
  deriving DecidableEq, Repr

/-- The pair `m`, `q` of a positive finite value, and whether it is the least of its binade. -/
structure BinaryParts where
  mantissa : Nat
  exponent : Int
  atBinadeStart : Bool
  deriving DecidableEq, Repr

def BinaryParts.ofBits (bits : UInt64) : BinaryParts :=
  let fraction := bits.toNat % 0x10000000000000
  let biased : Nat := bits.toNat / 0x10000000000000 % 0x800
  if biased = 0 then ⟨fraction, -1074, false⟩
  else ⟨0x10000000000000 + fraction, (biased : Int) - 1075, fraction == 0 && biased > 1⟩

/-- A value and the ends of its rounding interval over one denominator. -/
structure ScaledInterval where
  value : Nat
  low : Nat
  high : Nat
  denominator : Nat
  closed : Bool
  deriving Repr

/-- Everything is multiplied by four, so that the interval's ends are whole. -/
def BinaryParts.interval (p : BinaryParts) : ScaledInterval :=
  let up := Nat.pow 2 p.exponent.toNat
  { value := 4 * p.mantissa * up
    low := (4 * p.mantissa - if p.atBinadeStart then 1 else 2) * up
    high := (4 * p.mantissa + 2) * up
    denominator := 4 * Nat.pow 2 (-p.exponent).toNat
    closed := p.mantissa % 2 == 0 }

/-- Whether `n * 10 ^ e` lies in the interval. -/
def ScaledInterval.holds (v : ScaledInterval) (n : Nat) (e : Int) : Bool :=
  let x := n * Nat.pow 10 e.toNat * v.denominator
  let scale := Nat.pow 10 (-e).toNat
  if v.closed then v.low * scale ≤ x && x ≤ v.high * scale
  else v.low * scale < x && x < v.high * scale

/-- The multiple of `10 ^ e` at or below the value. -/
def ScaledInterval.floorAt (v : ScaledInterval) (e : Int) : Nat :=
  v.value * Nat.pow 10 (-e).toNat / (v.denominator * Nat.pow 10 e.toNat)

/-- Whether the value is nearer to `n * 10 ^ e` than to the next multiple; a tie goes to the even
one. -/
def ScaledInterval.nearerBelow (v : ScaledInterval) (n : Nat) (e : Int) : Bool :=
  let twice := 2 * (v.value * Nat.pow 10 (-e).toNat)
  let middle := (2 * n + 1) * (v.denominator * Nat.pow 10 e.toNat)
  twice < middle || (twice == middle && n % 2 == 0)

/-- The neighbour of the value on the grid of `10 ^ e` that lies in the interval, the nearer if
both do. -/
def ScaledInterval.onGrid? (v : ScaledInterval) (e : Int) : Option DecimalDigits :=
  let n := v.floorAt e
  match v.holds n e && n != 0, v.holds (n + 1) e with
  | true, true => some ⟨if v.nearerBelow n e then n else n + 1, e⟩
  | true, false => some ⟨n, e⟩
  | false, true => some ⟨n + 1, e⟩
  | false, false => none

/-- Try the grids from `10 ^ e` down to `steps` places finer. -/
def ScaledInterval.search (v : ScaledInterval) (e : Int) : Nat → DecimalDigits
  | 0 => ⟨v.floorAt e, e⟩
  | steps + 1 => (v.onGrid? e).getD (v.search (e - 1) steps)

/-- The exponent of the leading digit is at most this. -/
def leadingBound (p : BinaryParts) : Int :=
  ((p.mantissa.log2 + 1 : Nat) + p.exponent) * 30103 / 100000 + 1

/-- Divide out the zeros at the end. -/
def DecimalDigits.trimZeros (d : DecimalDigits) : Nat → DecimalDigits
  | 0 => d
  | fuel + 1 =>
    if d.digits % 10 == 0 && d.digits != 0 then
      DecimalDigits.trimZeros ⟨d.digits / 10, d.exponent + 1⟩ fuel
    else d

/-- The shortest digits of a positive finite value. Seventeen always suffice; the grid above the
leading digit is tried too, since the bound on its place may be one high. -/
def shortestDigits (bits : UInt64) : DecimalDigits :=
  let p := BinaryParts.ofBits bits
  (p.interval.search (leadingBound p) 20).trimZeros 20

end HttpCapture
