import HttpCapture.Text.Blank

/-! The deflate format. Bits are taken from the low end of each byte. A code is a binary tree with
the symbols at its leaves; walking it reads one symbol. -/

namespace HttpCapture.Inflate

inductive Error
  | incomplete
  | corrupt
  deriving DecidableEq, Repr

/-- The bits left of the byte in hand and the bytes behind it. -/
structure Source where
  pending : List Bool
  rest : Bytes

namespace Source

def bitsLeft (s : Source) : Nat := s.pending.length + 8 * s.rest.length

def byteBits (b : UInt8) : List Bool := (List.range 8).map fun i => b.toNat.testBit i

def next? (s : Source) : Option (Bool × Source) :=
  match s.pending with
  | bit :: bits => some (bit, { s with pending := bits })
  | [] =>
    match s.rest with
    | [] => none
    | b :: rest =>
      match byteBits b with
      | [] => none
      | bit :: bits => some (bit, ⟨bits, rest⟩)

/-- A number of `n` bits, the lowest first. -/
def number (s : Source) : Nat → Except Error (Nat × Source)
  | 0 => .ok (0, s)
  | n + 1 =>
    match s.next? with
    | none => .error .incomplete
    | some (bit, s) => (number s n).map fun (k, s) => (2 * k + bit.toNat, s)

end Source

inductive CodeTree
  | empty
  | leaf (symbol : Nat)
  | node (zero one : CodeTree)

namespace CodeTree

/-- Put `symbol` where the `length` low bits of `code` lead, the highest of them first. -/
def insert (symbol code : Nat) : Nat → CodeTree → CodeTree
  | 0, _ => .leaf symbol
  | length + 1, t =>
    let (zero, one) := match t with
      | .node zero one => (zero, one)
      | _ => (.empty, .empty)
    if code.testBit length then .node zero (insert symbol code length one)
    else .node (insert symbol code length zero) one

/-- The first code of the given length: codes of one length follow each other, and each length
starts after twice the codes of the length before. -/
def firstCode (lengths : List Nat) : Nat → Nat
  | 0 => 0
  | n + 1 => 2 * (firstCode lengths n + (if n = 0 then 0 else lengths.count n))

/-- The shares of the code space that the symbols take, of `0x8000` in all. -/
def space (lengths : List Nat) : Nat :=
  ((lengths.filter (· != 0)).map fun n => Nat.pow 2 (15 - n)).foldr (· + ·) 0

def insertAll (symbol : Nat) (next : Array Nat) (t : CodeTree) : List Nat → CodeTree
  | [] => t
  | 0 :: lengths => insertAll (symbol + 1) next t lengths
  | n :: lengths =>
    let code := next.getD n 0
    insertAll (symbol + 1) (next.setIfInBounds n (code + 1)) (t.insert symbol code n) lengths

/-- The tree of the canonical code with the given lengths, one per symbol. The code space has to be
filled exactly, unless gaps are allowed and at most one symbol is in use. -/
def ofLengths (allowsGaps : Bool) (lengths : List Nat) : Except Error CodeTree :=
  let used := (lengths.filter (· != 0)).length
  if space lengths = 0x8000 ∨ (allowsGaps ∧ used ≤ 1) then
    let next := ((List.range 16).map (firstCode lengths)).toArray
    .ok (insertAll 0 next (.node .empty .empty) lengths)
  else .error .corrupt

/-- Walk to a symbol; a place where no code leads is an error. -/
def read (t : CodeTree) (s : Source) : Except Error (Nat × Source) :=
  match t with
  | .empty => .error .corrupt
  | .leaf symbol => .ok (symbol, s)
  | .node zero one =>
    match s.next? with
    | none => .error .incomplete
    | some (false, s) => zero.read s
    | some (true, s) => one.read s

end CodeTree

/-- Extra bits of each length symbol from 257 on. -/
def lengthExtra : List Nat :=
  [0, 0, 0, 0, 0, 0, 0, 0, 1, 1, 1, 1, 2, 2, 2, 2, 3, 3, 3, 3, 4, 4, 4, 4, 5, 5, 5, 5, 0]

/-- The shortest length of each length symbol. -/
def lengthBase : List Nat :=
  [3, 4, 5, 6, 7, 8, 9, 10, 11, 13, 15, 17, 19, 23, 27, 31, 35, 43, 51, 59, 67, 83, 99, 115, 131,
   163, 195, 227, 258]

def distanceExtra (symbol : Nat) : Nat := symbol / 2 - 1

/-- The shortest distance of a distance symbol: two symbols share each number of extra bits. -/
def distanceBase (symbol : Nat) : Nat :=
  if symbol < 2 then symbol + 1 else (2 + symbol % 2) * Nat.pow 2 (distanceExtra symbol) + 1

/-- Repeat `length` bytes from `distance` back; what lies before the start reads as zero. -/
def repeatBack (out : ByteArray) (distance : Nat) : Nat → ByteArray
  | 0 => out
  | length + 1 =>
    let b := if distance ≤ out.size then out.data.getD (out.size - distance) 0 else 0
    repeatBack (out.push b) distance length

/-- The two codes of a compressed block. -/
structure Codes where
  literals : CodeTree
  distances : CodeTree

/-- Read symbols up to the end of the block; every symbol takes a bit, so as many steps as there are
bits suffice. -/
def readSymbols (codes : Codes) : Nat → ByteArray → Source → Except Error (ByteArray × Source)
  | 0, _, _ => .error .incomplete
  | fuel + 1, out, s => do
    let (symbol, s) ← codes.literals.read s
    if symbol < 256 then readSymbols codes fuel (out.push symbol.toUInt8) s
    else if symbol = 256 then return (out, s)
    else
      match lengthBase[symbol - 257]?, lengthExtra[symbol - 257]? with
      | some base, some extra =>
        let (more, s) ← s.number extra
        let (d, s) ← codes.distances.read s
        if d > 29 then throw .corrupt
        let (further, s) ← s.number (distanceExtra d)
        readSymbols codes fuel (repeatBack out (distanceBase d + further) (base + more)) s
      | _, _ => throw .corrupt

def fixedCodes : Except Error Codes := do
  let literals := List.replicate 144 8 ++ List.replicate 112 9 ++ List.replicate 24 7 ++
    List.replicate 8 8
  return ⟨← CodeTree.ofLengths true literals, ← CodeTree.ofLengths true (List.replicate 32 5)⟩

/-- The order in which the lengths of the length code are sent. -/
def lengthOrder : List Nat := [16, 17, 18, 0, 8, 7, 9, 6, 10, 5, 11, 4, 12, 3, 13, 2, 14, 1, 15]

def readNumbers (width : Nat) : Nat → Source → Except Error (List Nat × Source)
  | 0, s => .ok ([], s)
  | n + 1, s => do
    let (k, s) ← s.number width
    let (ks, s) ← readNumbers width n s
    return (k :: ks, s)

/-- Read `wanted` code lengths; `done` holds those read so far, last first. A run past the end is an
error. -/
def readLengths (tree : CodeTree) (wanted : Nat) :
    Nat → List Nat → Source → Except Error (List Nat × Source)
  | 0, _, _ => .error .incomplete
  | fuel + 1, done, s =>
    if done.length = wanted then .ok (done.reverse, s)
    else if done.length > wanted then .error .corrupt
    else do
      let (symbol, s) ← tree.read s
      let again (value width least : Nat) := do
        let (n, s) ← s.number width
        readLengths tree wanted fuel (List.replicate (least + n) value ++ done) s
      if symbol < 16 then readLengths tree wanted fuel (symbol :: done) s
      else if symbol = 16 then
        match done with
        | [] => throw .corrupt
        | last :: _ => again last 2 3
      else if symbol = 17 then again 0 3 3
      else again 0 7 11

/-- The codes that a block brings along. -/
def readCodes (s : Source) : Except Error (Codes × Source) := do
  let (literals, s) ← s.number 5
  let (distances, s) ← s.number 5
  let (lengths, s) ← s.number 4
  let literals := literals + 257
  let distances := distances + 1
  if literals > 286 || distances > 30 then throw .corrupt
  let (sent, s) ← readNumbers 3 (lengths + 4) s
  let ordered := (List.range 19).map fun symbol =>
    ((lengthOrder.zip sent).lookup symbol).getD 0
  let tree ← CodeTree.ofLengths false ordered
  let (all, s) ← readLengths tree (literals + distances) (literals + distances + 1) [] s
  let distanceTree ← CodeTree.ofLengths true (all.drop literals)
  let literalTree ← CodeTree.ofLengths true (all.take literals)
  return (⟨literalTree, distanceTree⟩, s)

/-- A stored block: its length twice, once with all bits inverted, then its bytes. -/
def readStored (out : ByteArray) (s : Source) : Except Error (ByteArray × Source) :=
  match s.rest with
  | a :: b :: c :: d :: rest =>
    let n := a.toNat + 256 * b.toNat
    if n + (c.toNat + 256 * d.toNat) ≠ 65535 then .error .corrupt
    else
      let bytes := rest.take n
      if bytes.length < n then .error .incomplete
      else .ok (bytes.foldl ByteArray.push out, ⟨[], rest.drop n⟩)
  | _ => .error .incomplete

/-- Read blocks up to the last one; every block takes at least three bits. -/
def readBlocks : Nat → ByteArray → Source → Except Error (ByteArray × Source)
  | 0, _, _ => .error .incomplete
  | fuel + 1, out, s => do
    let (final, s) ← s.number 1
    let (kind, s) ← s.number 2
    let (out, s) ← match kind with
      | 0 => readStored out s
      | 1 => do readSymbols (← fixedCodes) (s.bitsLeft + 1) out s
      | 2 => do
        let (codes, s) ← readCodes s
        readSymbols codes (s.bitsLeft + 1) out s
      | _ => throw .corrupt
    if final = 1 then return (out, s) else readBlocks fuel out s

/-- The data that a compressed stream stands for, and the bytes after the one it ends in. -/
def inflate (bs : Bytes) : Except Error (ByteArray × Bytes) :=
  (readBlocks (8 * bs.length + 1) ByteArray.empty ⟨[], bs⟩).map fun (out, s) => (out, s.rest)

end HttpCapture.Inflate
