import HttpCapture.Coding.Inflate

/-! Gzip: a header, a deflate stream, and a trailer with the checksum and length of the data. Only
the first member of a file is read. -/

namespace HttpCapture.Gzip

inductive Error
  | truncated
  | badHeader
  | badChecksum
  | badData (cause : Inflate.Error)
  deriving DecidableEq, Repr

def Error.message : Error → String
  | .truncated => "unexpected end of file"
  | .badHeader => "invalid gzip header"
  | .badChecksum => "corrupt gzip stream does not have a matching checksum"
  | .badData .incomplete => "incomplete deflate stream"
  | .badData .corrupt => "corrupt deflate stream"

/-- One bit of the cyclic redundancy check. -/
def crcBit (c : UInt32) : UInt32 :=
  if c &&& 1 = 1 then (c >>> 1) ^^^ 0xedb88320 else c >>> 1

def crcByte (c : UInt32) (b : UInt8) : UInt32 :=
  (crcBit ∘ crcBit ∘ crcBit ∘ crcBit ∘ crcBit ∘ crcBit ∘ crcBit ∘ crcBit) (c ^^^ b.toUInt32)

def crc32 (bs : Bytes) : UInt32 := bs.foldl crcByte 0xffffffff ^^^ 0xffffffff

/-- A number written lowest byte first. -/
def littleEndian : Bytes → Nat
  | [] => 0
  | b :: bs => b.toNat + 256 * littleEndian bs

/-- Skip bytes up to the first zero and past it. -/
def skipName (bs : Bytes) : Except Error Bytes :=
  match bs.dropWhile (· != 0) with
  | [] => .error .truncated
  | _ :: rest => .ok rest

def skipExtra (bs : Bytes) : Except Error Bytes :=
  let n := littleEndian (bs.take 2)
  if bs.length < 2 ∨ (bs.drop 2).length < n then .error .truncated else .ok (bs.drop (2 + n))

/-- What follows the header of `bs`. Its flags say which optional parts it has: a checksum of its
own, extra data, a name and a comment. -/
def skipHeader (bs : Bytes) : Except Error Bytes :=
  match bs with
  | id₁ :: id₂ :: method :: flags :: _ :: _ :: _ :: _ :: _ :: _ :: rest => do
    if id₁ ≠ 0x1f ∨ id₂ ≠ 0x8b ∨ method ≠ 8 ∨ flags &&& 0xe0 ≠ 0 then throw .badHeader
    let rest ← if flags &&& 4 = 0 then pure rest else skipExtra rest
    let rest ← if flags &&& 8 = 0 then pure rest else skipName rest
    let rest ← if flags &&& 16 = 0 then pure rest else skipName rest
    if flags &&& 2 = 0 then return rest
    if rest.length < 2 then throw .truncated
    let sum := crc32 (bs.take (bs.length - rest.length))
    if sum.toNat % 65536 ≠ littleEndian (rest.take 2) then throw .badChecksum
    return rest.drop 2
  | _ => .error .truncated

/-- The data of the first member. -/
def decompress (bs : Bytes) : Except Error Bytes := do
  let body ← skipHeader bs
  let (out, rest) ← (Inflate.inflate body).mapError .badData
  let data := out.data.toList
  let trailer := rest.take 8
  if trailer.length < 8 then throw .truncated
  if littleEndian (trailer.take 4) ≠ (crc32 data).toNat ∨
      littleEndian (trailer.drop 4) ≠ data.length % 0x100000000 then throw .badChecksum
  return data

end HttpCapture.Gzip
