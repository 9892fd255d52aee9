import HttpCapture.Decimal.Shortest

/-! How the digits of a number are laid out as text. -/

namespace HttpCapture

/-- What a format says about numbers. A number whose leading digit stands at the place `e` is
written positionally when `least ≤ e < bound`, or always when there are no such limits. -/
structure NumberFormat where
  limits : Option (Int × Int)
  keepsPoint : Bool
  notANumber : String
  infinity : String
  negativeInfinity : String

/-- JSON marks every such number with a point or an exponent, and has no word for what is not
finite. -/
def NumberFormat.json : NumberFormat := ⟨some (-5, 16), true, "null", "null", "null"⟩

/-- Running text never uses an exponent and shows a whole number without a point. -/
def NumberFormat.plain : NumberFormat := ⟨none, false, "NaN", "inf", "-inf"⟩

/-- Digits with the point inside, in front or behind. -/
def positional (digits : List Char) (exponent : Int) (keepsPoint : Bool) : List Char :=
  let whole : Int := digits.length + exponent
  if 0 ≤ exponent then
    digits ++ List.replicate exponent.toNat '0' ++ (if keepsPoint then ['.', '0'] else [])
  else if 0 < whole then digits.take whole.toNat ++ '.' :: digits.drop whole.toNat
  else '0' :: '.' :: List.replicate (-whole).toNat '0' ++ digits

/-- One digit, the others behind a point, and the exponent with its sign. -/
def scientific (digits : List Char) (place : Int) : List Char :=
  let fraction := digits.drop 1
  digits.take 1 ++ (if fraction.isEmpty then [] else '.' :: fraction) ++
    'e' :: (if place < 0 then '-' else '+') :: Nat.toDigits 10 place.natAbs

def NumberFormat.magnitude (f : NumberFormat) (bits : UInt64) : List Char :=
  if bits = 0 then positional ['0'] 0 f.keepsPoint
  else
    let d := shortestDigits bits
    let digits := Nat.toDigits 10 d.digits
    let place : Int := digits.length + d.exponent - 1
    let isPositional :=
      match f.limits with
      | none => true
      | some (least, bound) => decide (least ≤ place ∧ place < bound)
    if isPositional then positional digits d.exponent f.keepsPoint else scientific digits place

/-- The text of a binary64 value. -/
def NumberFormat.text (f : NumberFormat) (bits : UInt64) : List Char :=
  let negative := bits ≥ 0x8000000000000000
  let size := bits &&& 0x7fffffffffffffff
  if size > 0x7ff0000000000000 then f.notANumber.toList
  else if size = 0x7ff0000000000000 then
    (if negative then f.negativeInfinity else f.infinity).toList
  else (if negative then ['-'] else []) ++ f.magnitude size

end HttpCapture
