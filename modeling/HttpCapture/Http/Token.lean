import HttpCapture.Text.Ascii

/-! Tokens, the words of a protocol line. -/

namespace HttpCapture

def isTokenByte (b : UInt8) : Bool :=
  isLetterByte b || isDigitByte b ||
    b == 0x21 || b == 0x23 || b == 0x24 || b == 0x25 || b == 0x26 || b == 0x27 || b == 0x2a ||
    b == 0x2b || b == 0x2d || b == 0x2e || b == 0x5e || b == 0x5f || b == 0x60 || b == 0x7c ||
    b == 0x7e

def isToken (s : Bytes) : Bool := !s.isEmpty && s.all isTokenByte

end HttpCapture
