/-! Decimal text of an unsigned number that fits 64 bits. -/

namespace HttpCapture

/-- One more than the largest 64-bit number. -/
def wordBound : Nat := 0x10000000000000000

inductive NumberError
  | empty
  | invalidDigit
  | tooLarge
  deriving DecidableEq, Repr

def NumberError.message : NumberError → String
  | .empty => "cannot parse integer from empty string"
  | .invalidDigit => "invalid digit found in string"
  | .tooLarge => "number too large to fit in target type"

/-- Extend `acc` by the digits of a text; the first fault from the left is the one reported. -/
def readDigits (acc : Nat) : List Char → Except NumberError Nat
  | [] => .ok acc
  | c :: cs =>
    if c.isDigit then
      let next := acc * 10 + (c.toNat - 48)
      if next < wordBound then readDigits next cs else .error .tooLarge
    else .error .invalidDigit

/-- A plus sign may stand in front of the digits. -/
def readUnsigned (s : List Char) : Except NumberError Nat :=
  match s with
  | [] => .error .empty
  | ['+'] => .error .invalidDigit
  | '+' :: digits => readDigits 0 digits
  | digits => readDigits 0 digits

end HttpCapture
