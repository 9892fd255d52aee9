import HttpCapture.Text.Ascii
import HttpCapture.Text.Split

/-! Network addresses and their text. An address of eight groups is written in lower case with its
longest run of zero groups left out, the first of them if there are several and none shorter than
two; one that embeds an address of four octets ends in dotted form. -/

namespace HttpCapture

inductive IpAddress
  | v4 (a b c d : UInt8)
  | v6 (groups : Vector UInt16 8)
  deriving DecidableEq, Repr

namespace IpAddress

/-- Where the longest run of zeros starts and how long it is, given the run that ends here. -/
def longestZeroRun (i : Nat) (current best : Nat × Nat) : List UInt16 → Nat × Nat
  | [] => best
  | g :: gs =>
    if g = 0 then
      let current := if current.2 = 0 then (i, 1) else (current.1, current.2 + 1)
      longestZeroRun (i + 1) current (if best.2 < current.2 then current else best) gs
    else longestZeroRun (i + 1) (0, 0) best gs

def decimalText (n : Nat) : List Char := Nat.toDigits 10 n

def hexText (n : Nat) : List Char := Nat.toDigits 16 n

def dottedText (a b c d : UInt8) : List Char :=
  decimalText a.toNat ++ '.' :: decimalText b.toNat ++ '.' :: decimalText c.toNat ++
    '.' :: decimalText d.toNat

def groupsText (gs : List UInt16) : List Char :=
  [':'].intercalate (gs.map fun g => hexText g.toNat)

def text : IpAddress → List Char
  | .v4 a b c d => dottedText a b c d
  | .v6 groups =>
    match groups.toList with
    | [0, 0, 0, 0, 0, 0xffff, x, y] =>
      "::ffff:".toList ++ dottedText (x / 256).toUInt8 x.toUInt8 (y / 256).toUInt8 y.toUInt8
    | gs =>
      let (start, count) := longestZeroRun 0 (0, 0) (0, 0) gs
      if count > 1 then
        groupsText (gs.take start) ++ ':' :: ':' :: groupsText (gs.drop (start + count))
      else groupsText gs

/-- A decimal octet of at most three digits, without leading zeros. -/
def readOctet? (s : List Char) : Option (UInt8 × List Char) :=
  let digits := s.takeWhile Char.isDigit
  let value := digits.foldl (fun n c => n * 10 + (c.toNat - 48)) 0
  if digits.length = 0 ∨ digits.length > 3 ∨ value > 255 then none
  else if digits.head? = some '0' ∧ digits.length > 1 then none
  else some (UInt8.ofNat value, s.drop digits.length)

def readDotted? (s : List Char) : Option (UInt8 × UInt8 × UInt8 × UInt8 × List Char) := do
  let (a, s) ← readOctet? s
  let (b, s) ← readOctet? (← after? ['.'] s)
  let (c, s) ← readOctet? (← after? ['.'] s)
  let (d, s) ← readOctet? (← after? ['.'] s)
  return (a, b, c, d, s)

def hexCharValue? (c : Char) : Option Nat :=
  if c.toNat < 128 then hexValue? (UInt8.ofNat c.toNat) else none

/-- A group of one to four hexadecimal digits. -/
def readGroup? (s : List Char) : Option (UInt16 × List Char) :=
  let digits := s.takeWhile (hexCharValue? · |>.isSome)
  if digits.length = 0 ∨ digits.length > 4 then none
  else some (UInt16.ofNat ((digits.filterMap hexCharValue?).foldl (· * 16 + ·) 0),
    s.drop digits.length)

/-- Up to `limit` groups with colons between them, and whether the last two were written in dotted
form. A colon that no group follows is not consumed. -/
def readGroups (first : Bool) : Nat → List Char → List UInt16 × Bool × List Char
  | 0, s => ([], false, s)
  | limit + 1, s =>
    match if first then some s else after? [':'] s with
    | none => ([], false, s)
    | some r =>
      match if limit = 0 then none else readDotted? r with
      | some (a, b, c, d, t) =>
        ([a.toUInt16 * 256 + b.toUInt16, c.toUInt16 * 256 + d.toUInt16], true, t)
      | none =>
        match readGroup? r with
        | none => ([], false, s)
        | some (g, t) =>
          let (gs, dotted, u) := readGroups false limit t
          (g :: gs, dotted, u)

/-- Eight groups, or fewer around one pair of colons that stands for at least one zero group. -/
def readGrouped? (s : List Char) : Option (List UInt16 × List Char) :=
  let (front, dotted, r) := readGroups true 8 s
  if front.length = 8 then some (front, r)
  else if dotted then none
  else
    (after? [':', ':'] r).map fun r =>
      let (back, _, t) := readGroups true (7 - front.length) r
      (front ++ List.replicate (8 - front.length - back.length) 0 ++ back, t)

def read? (s : List Char) : Option IpAddress :=
  match readDotted? s with
  | some (a, b, c, d, r) => if r.isEmpty then some (.v4 a b c d) else none
  | none =>
    match readGrouped? s with
    | some (gs, []) => if h : gs.length = 8 then some (.v6 ⟨gs.toArray, by simp [h]⟩) else none
    | _ => none

end IpAddress

end HttpCapture
