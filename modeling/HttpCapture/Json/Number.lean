import HttpCapture.Text.Unsigned

/-! JSON numbers as they are read. A whole number that fits 64 bits stays whole; any other is a
binary64 value, computed from at most nineteen or twenty leading digits and one power of ten. -/

namespace HttpCapture

/-- The parts of a number as written. -/
structure NumberText where
  negative : Bool
  whole : List Char
  fraction : Option (List Char)
  /-- Whether the exponent is negative, and its digits. -/
  exponent : Option (Bool × List Char)
  deriving DecidableEq, Repr

inductive JsonNumber
  | whole (n : Int)
  | float (bits : UInt64)
  deriving DecidableEq, Repr

namespace NumberText

/-- Digits at the front and what follows them, if there are any. -/
def digits1? (s : List Char) : Option (List Char × List Char) :=
  let ds := s.takeWhile Char.isDigit
  if ds.isEmpty then none else some (ds, s.dropWhile Char.isDigit)

/-- A fraction, if there is a point; the point needs a digit. -/
def readFraction? : List Char → Option (Option (List Char) × List Char)
  | '.' :: s => (digits1? s).map fun (ds, r) => (some ds, r)
  | s => some (none, s)

/-- An exponent, if there is a mark for one; the mark needs a digit. -/
def readExponent? : List Char → Option (Option (Bool × List Char) × List Char)
  | 'e' :: s => afterMark s
  | 'E' :: s => afterMark s
  | s => some (none, s)
where
  afterMark : List Char → Option (Option (Bool × List Char) × List Char)
    | '-' :: s => (digits1? s).map fun (ds, r) => (some (true, ds), r)
    | '+' :: s => (digits1? s).map fun (ds, r) => (some (false, ds), r)
    | s => (digits1? s).map fun (ds, r) => (some (false, ds), r)

/-- A number at the front of a text. A leading zero stands alone. -/
def read? (s : List Char) : Option (NumberText × List Char) := do
  let (negative, s) := match s with
    | '-' :: s => (true, s)
    | s => (false, s)
  let (whole, s) ← digits1? s
  if whole.head? = some '0' ∧ whole.length > 1 then none
  let (fraction, s) ← readFraction? s
  let (exponent, s) ← readExponent? s
  return (⟨negative, whole, fraction, exponent⟩, s)

/-- Append digits to a number as long as it fits 64 bits; also how many digits were left over. -/
def absorb (n : Nat) : List Char → Nat × Nat
  | [] => (n, 0)
  | c :: cs =>
    let next := n * 10 + (c.toNat - 48)
    if next < wordBound then absorb next cs else (n, cs.length + 1)

/-- `x * 10 ^ e` with one rounding per power of ten that has a binary64 value; none if it is too
large. -/
def scale (x : Float) (e : Int) : Option Float :=
  if e.natAbs ≤ 308 then
    let power := Float.ofScientific 1 false e.natAbs
    if e ≥ 0 then
      let y := x * power
      if y.isInf then none else some y
    else some (x / power)
  else if x == 0 then some x
  else if _h : e ≥ 0 then none
  else scale (x / 1e308) (e + 308)
termination_by (-e).toNat

/-- Exponents from here on are out of range. -/
def exponentBound : Nat := 0x80000000

def signed (negative : Bool) (x : Float) : JsonNumber :=
  .float (if negative then -x else x).toBits

/-- A number that is not whole, or too large to stay so, from its leading digits and its scale. -/
def floating? (t : NumberText) (significand : Nat) (e : Int) : Option JsonNumber :=
  let scaled (e : Int) := (scale significand.toUInt64.toFloat e).map (signed t.negative)
  match t.exponent with
  | none => scaled e
  | some (negative, ds) =>
    let n := ds.foldl (fun n c => n * 10 + (c.toNat - 48)) 0
    if n < exponentBound then scaled (if negative then e - n else e + n)
    else if significand ≠ 0 ∧ !negative then none
    else some (signed t.negative 0)

/-- What a written number means; none if it is out of range. -/
def value? (t : NumberText) : Option JsonNumber :=
  let (n, left) := absorb 0 t.whole
  match t.fraction with
  | some ds =>
    let (m, ignored) := absorb n ds
    t.floating? m (left - (ds.length - ignored : Nat))
  | none =>
    if left = 0 ∧ t.exponent.isNone then
      if !t.negative then some (.whole n)
      else if 0 < n ∧ n ≤ 0x8000000000000000 then some (.whole (-n))
      else some (signed true n.toUInt64.toFloat)
    else t.floating? n left

end NumberText

end HttpCapture
