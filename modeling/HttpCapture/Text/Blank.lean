/-! Blank characters and trimming. A blank is a code point with the White_Space property; a blank
byte is one of the five that separate tokens on a protocol line. -/

namespace HttpCapture

/-- A byte string, read from the wire or written to a file. -/
abbrev Bytes := List UInt8

/-- The White_Space code points, twenty-five of them. -/
def isBlank (c : Char) : Bool :=
  let n := c.toNat
  (9 ≤ n && n ≤ 13) || n == 0x20 || n == 0x85 || n == 0xA0 || n == 0x1680 ||
    (0x2000 ≤ n && n ≤ 0x200A) || n == 0x2028 || n == 0x2029 || n == 0x202F || n == 0x205F ||
    n == 0x3000

/-- Space, tab, line feed, form feed and carriage return. -/
def isBlankByte (b : UInt8) : Bool :=
  b == 32 || b == 9 || b == 10 || b == 12 || b == 13

/-- Drop the members at either end that satisfy `p`. -/
def trimBy {α : Type} (p : α → Bool) (l : List α) : List α :=
  ((l.dropWhile p).reverse.dropWhile p).reverse

abbrev trim (s : List Char) : List Char := trimBy isBlank s

abbrev trimBytes (s : Bytes) : Bytes := trimBy isBlankByte s

end HttpCapture
