import HttpCapture.Text.Ascii
import HttpCapture.Text.Split
import HttpCapture.Text.Unsigned

/-! The Content-Range field: which bytes of an object a partial response carries. -/

namespace HttpCapture

inductive ContentRange
  | satisfied (first last : Nat) (instanceLength : Option Nat)
  | unsatisfiable (instanceLength : Nat)
  deriving DecidableEq, Repr

inductive ContentRangeError
  | empty
  | unsupportedUnit (unit : String)
  | missingRange
  | missingSlash
  | unexpectedStar
  | badLength (cause : NumberError)
  | missingDash
  | missingPosition
  | badFirst (cause : NumberError)
  | badLast (cause : NumberError)
  | reversed
  deriving DecidableEq, Repr

def ContentRangeError.message : ContentRangeError → String
  | .empty => "empty header value"
  | .unsupportedUnit unit => "unsupported unit '" ++ unit ++ "', expected 'bytes'"
  | .missingRange => "missing range/spec"
  | .missingSlash => "missing '/' in range/spec"
  | .unexpectedStar => "unexpected value before '/'"
  | .badLength cause => "invalid instance-length: " ++ cause.message
  | .missingDash => "missing '-' in byte-range"
  | .missingPosition => "missing first or last byte-pos"
  | .badFirst cause => "invalid first byte-pos: " ++ cause.message
  | .badLast cause => "invalid last byte-pos: " ++ cause.message
  | .reversed => "first byte-pos greater than last"

/-- The object length after the slash, where a star says that it is unknown. -/
def readLength (s : List Char) : Except ContentRangeError (Option Nat) :=
  if s = ['*'] then .ok none else ((readUnsigned s).map some).mapError .badLength

/-- The two positions around the first dash. -/
def readPositions (s : List Char) : Except ContentRangeError (Nat × Nat) := do
  let some (first, last) := cutAt '-' s | throw .missingDash
  let first := trim first
  let last := trim last
  if first.isEmpty || last.isEmpty then throw .missingPosition
  let f ← (readUnsigned first).mapError .badFirst
  let l ← (readUnsigned last).mapError .badLast
  if f > l then throw .reversed
  return (f, l)

def ContentRange.read (s : List Char) : Except ContentRangeError ContentRange := do
  let s := trim s
  if s.isEmpty then throw .empty
  let unit := s.takeWhile (· != ' ')
  if lower unit != "bytes".toList then throw (.unsupportedUnit (String.ofList unit))
  let some (_, rest) := cutAt ' ' s | throw .missingRange
  let some (left, right) := cutAt '/' (trim rest) | throw .missingSlash
  let left := trim left
  let right := trim right
  if left.head? = some '*' then
    if left ≠ ['*'] then throw .unexpectedStar
    return .unsatisfiable (← (readUnsigned right).mapError .badLength)
  let (first, last) ← readPositions left
  return .satisfied first last (← readLength right)

end HttpCapture
