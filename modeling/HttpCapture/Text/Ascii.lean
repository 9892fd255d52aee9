import HttpCapture.Text.Blank

/-! ASCII letters and digits, as bytes and as characters, and UTF-8 at the
border between the two. -/

namespace HttpCapture

def isDigitByte (b : UInt8) : Bool := 48 ≤ b && b ≤ 57

def isLetterByte (b : UInt8) : Bool := (65 ≤ b && b ≤ 90) || (97 ≤ b && b ≤ 122)

/-- The value of a hexadecimal digit of either case. -/
def hexValue? (b : UInt8) : Option Nat :=
  if isDigitByte b then some (b.toNat - 48)
  else if 65 ≤ b && b ≤ 70 then some (b.toNat - 55)
  else if 97 ≤ b && b ≤ 102 then some (b.toNat - 87)
  else none

/-- The lowercase digit of a value below sixteen. -/
def hexDigit (n : Nat) : UInt8 := UInt8.ofNat (if n < 10 then 48 + n else 87 + n)

/-- Lowercase hexadecimal without leading zeros. -/
def hexBytes (n : Nat) : Bytes :=
  if n < 16 then [hexDigit n] else hexBytes (n / 16) ++ [hexDigit (n % 16)]

def lowerByte (b : UInt8) : UInt8 := if 65 ≤ b && b ≤ 90 then b + 32 else b

/-- Each ASCII letter in lower case, all else as it is. -/
def lower (s : List Char) : List Char := s.map Char.toLower

def sameLetters (a b : String) : Bool := lower a.toList == lower b.toList

/-- The text whose characters are the given bytes, one each. -/
def latinText (bs : Bytes) : List Char := bs.map (fun b => Char.ofNat b.toNat)

def utf8Bytes (s : String) : Bytes := s.toUTF8.data.toList

/-- The text that `bs` encodes, if it is well-formed UTF-8. -/
def utf8Text? (bs : Bytes) : Option String := String.fromUTF8? ⟨bs.toArray⟩

end HttpCapture
