import VoxelEdit.Text.Bytes
import VoxelEdit.Zlib.Inflate

/-!
# Compressed blobs with a checksum

Two header bytes, a deflated text and the Adler checksum of what it inflates to. `unpack?`
takes any such blob and ignores what follows the checksum; `pack` stores its bytes without
making them shorter.
-/

namespace VoxelEdit.Zlib

open Text

/-- The Adler checksum: two sums modulo 65521. -/
def adler (bs : List UInt8) : Nat :=
  let (a, b) := bs.foldl (fun (a, b) x =>
    let a := (a + x.toNat) % 65521
    (a, (b + a) % 65521)) (1, 0)
  b * 65536 + a

/-- The most bytes of a stored block. -/
def blockSize : Nat := 65535

/-- Stored blocks; `limit` bounds their number. -/
def storedBlocks : (limit : Nat) → List UInt8 → List UInt8
  | 0, _ => []
  | limit + 1, bs =>
    let block := bs.take blockSize
    let rest := bs.drop blockSize
    let header := littleEndian 2 block.length ++ littleEndian 2 (65535 - block.length)
    if rest.isEmpty then 1 :: header ++ block
    else 0 :: header ++ block ++ storedBlocks limit rest

/-- A blob that holds `bs`. -/
def pack (bs : List UInt8) : List UInt8 :=
  0x78 :: 0x01 :: storedBlocks (bs.length / blockSize + 1) bs ++ bigEndian 4 (adler bs)

/-- The bytes that a blob holds. -/
def unpack? (bs : List UInt8) : Option (List UInt8) := do
  let data : ByteArray := ⟨bs.toArray⟩
  let (method, s) ← (Stream.mk data 0).bits? 8
  let (flags, s) ← s.bits? 8
  if (method * 256 + flags) % 31 ≠ 0 || method % 16 ≠ 8 || method / 16 > 7 ||
      flags / 32 % 2 = 1 then none
  else
    let (s, out) ← inflate? s
    let (sum, _) ← (Decoder.big 4) (bs.drop (s.align.pos / 8))
    let bytes := out.data.toList
    if sum = adler bytes then some bytes else none

end VoxelEdit.Zlib
