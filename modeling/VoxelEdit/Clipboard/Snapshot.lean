import VoxelEdit.Clipboard.Basic
import VoxelEdit.Text.Bytes

/-!
# Stored clipboards

Four letters and a version, then the clipboard in little-endian form: its size and both
positions of the player, the palette, and the cells. A sequence comes after its length in eight
bytes, and an optional part after a byte that is zero or one. Bytes after the cells are ignored.
The number of cells must be the product of the size. Where that product does not fit into 64 bits,
the reading program stops and gives no answer, not even an error.
-/

namespace VoxelEdit

open Nbt Text

/-- Why bytes are no stored clipboard. -/
inductive ClipboardError where
  | tooShort
  | badMagic
  | unsupportedVersion (version : Nat)
  | undecodable
  | entity (cause : BlobError)
  | badSize (size : Pos)
  | cellCount (count : Nat) (size : Pos)
  | paletteIndex (id count : Nat)
deriving Repr

namespace ClipboardError

/-- What is wrong with a clipboard that could be decoded. -/
def corrupt (detail : String) : String := "Corrupt snapshot: " ++ detail

/-- The message of an error; the two that come from other formats have none. -/
def message : ClipboardError → String
  | .tooShort => "Snapshot data too short"
  | .badMagic => "Invalid snapshot magic bytes"
  | .unsupportedVersion version => "Unsupported snapshot version: " ++ toString version
  | .undecodable | .entity _ => ""
  | .badSize size => corrupt ("invalid size " ++ size.text)
  | .cellCount count size => corrupt (toString count ++ " cells for size " ++ size.text)
  | .paletteIndex id count =>
    corrupt ("palette index " ++ toString id ++ " out of " ++ toString count)

end ClipboardError

namespace Clipboard

/-- The letters that a stored clipboard starts with. -/
def magic : List UInt8 := [0x57, 0x45, 0x43, 0x42]

/-- The version that is read and written. -/
def version : Nat := 1

/-! ## Writing -/

/-- A sequence after its length. -/
def sequenceBytes {α : Type} (item : α → List UInt8) (xs : List α) : List UInt8 :=
  littleEndian 8 xs.length ++ xs.flatMap item

/-- An optional part. -/
def optionBytes {α : Type} (item : α → List UInt8) : Option α → List UInt8
  | none => [0]
  | some a => 1 :: item a

/-- A text. -/
def textBytes (s : String) : List UInt8 := sequenceBytes (fun b => [b]) (utf8 s)

/-- A coordinate. -/
def coordinateBytes (v : Int) : List UInt8 := littleEndian 4 (Int32.ofInt v).toUInt32.toNat

/-- A position. -/
def posBytes (p : Pos) : List UInt8 :=
  coordinateBytes p.x ++ coordinateBytes p.y ++ coordinateBytes p.z

/-- A block. -/
def blockBytes (b : Block) : List UInt8 :=
  textBytes b.name ++ littleEndian 2 b.data.toNat ++
    sequenceBytes (fun (k, v) => textBytes k ++ textBytes v) b.properties

/-- An entry; its tag tree is compressed. -/
def entryBytes? (e : Entry) : Except BlobError (List UInt8) := do
  let blob ← e.entity.mapM compress?
  return blockBytes e.block ++ optionBytes blockBytes e.extra ++
    optionBytes (sequenceBytes fun b => [b]) blob

/-- A cell. -/
def cellBytes (cell : Option Nat) : List UInt8 := optionBytes (littleEndian 4) cell

/-- The stored form of a clipboard, unless the palette has a tag tree that cannot be written. -/
def encode? (c : Clipboard) : Except ClipboardError (List UInt8) :=
  match c.palette.toList.mapM entryBytes? with
  | .error cause => .error (.entity cause)
  | .ok entries => .ok (magic ++ littleEndian 4 version ++ posBytes c.size ++ posBytes c.player ++
      posBytes c.relative ++ sequenceBytes id entries ++ sequenceBytes cellBytes c.cells.toList)

/-! ## Reading -/

/-- Reads a sequence. -/
def readSequence {α : Type} (item : Decoder α) : Decoder (List α) := do
  Decoder.many (← Decoder.little 8) item

/-- Reads an optional part. -/
def readOption {α : Type} (item : Decoder α) : Decoder (Option α) := do
  match ← Decoder.byte with
  | 0 => return none
  | 1 => return some (← item)
  | _ => failure

/-- Reads a text. -/
def readText : Decoder String := do
  let bs ← Decoder.bytes (← Decoder.little 8)
  (ofUtf8? bs : Option String)

/-- Reads a coordinate. -/
def readCoordinate : Decoder Int := do return (← Decoder.little 4).toUInt32.toInt32.toInt

/-- Reads a position. -/
def readPos : Decoder Pos := do return ⟨← readCoordinate, ← readCoordinate, ← readCoordinate⟩

/-- Reads a block. -/
def readBlock : Decoder Block := do
  let name ← readText
  let data ← Decoder.little 2
  let properties ← readSequence do return (← readText, ← readText)
  return ⟨name, data.toUInt16, properties⟩

/-- Reads an entry, its tag tree still compressed. -/
def readEntry : Decoder (Block × Option Block × Option (List UInt8)) := do
  let block ← readBlock
  let extra ← readOption readBlock
  let blob ← readOption do Decoder.bytes (← Decoder.little 8)
  return (block, extra, blob)

/-- A clipboard as it is stored. -/
structure Stored where
  size : Pos
  player : Pos
  relative : Pos
  palette : List (Block × Option Block × Option (List UInt8))
  cells : List (Option Nat)

/-- Reads what follows the version. -/
def readStored : Decoder Stored := do
  let size ← readPos
  let player ← readPos
  let relative ← readPos
  let palette ← readSequence readEntry
  let cells ← readSequence (readOption (Decoder.little 4))
  return ⟨size, player, relative, palette, cells⟩

/-- The number of cells of a size. The program stops if it does not fit into 64 bits. -/
def cellsFor? (size : Pos) : Option Nat :=
  let count := (size.x * size.y * size.z).toNat
  if count ≤ Number.maxWord64 then some count else none

/-- The entry of a stored one. -/
def expand : Block × Option Block × Option (List UInt8) → Except BlobError Entry
  | (block, extra, blob) => do return ⟨block, extra, ← blob.mapM decompress?⟩

/-- The clipboard in use that is made of these parts. -/
def ofParts (size : Pos) (palette : Array Entry) (cells : Array (Option Nat))
    (player relative : Pos) : Clipboard :=
  ⟨size, palette, cells, .ofPalette palette, player, relative, true⟩

/-- Checks the cells and the palette, and makes a clipboard of them that is in use. -/
def ofCells? (s : Stored) : Except ClipboardError Clipboard :=
  match s.cells.find? fun cell => cell.any (· ≥ s.palette.length) with
  | some (some id) => .error (.paletteIndex id s.palette.length)
  | _ =>
    match s.palette.mapM expand with
    | .error cause => .error (.entity cause)
    | .ok palette => .ok (.ofParts s.size palette.toArray s.cells.toArray s.player s.relative)

/-- Checks what was stored and makes a clipboard of it, unless the program stops. -/
def ofStored? (s : Stored) : Option (Except ClipboardError Clipboard) :=
  if s.size.x < 1 || s.size.y < 1 || s.size.z < 1 then some (.error (.badSize s.size))
  else
    (cellsFor? s.size).map fun count =>
      if s.cells.length = count then ofCells? s
      else .error (.cellCount s.cells.length s.size)

/-- Reads a stored clipboard, unless the program stops. -/
def decode? (bs : List UInt8) : Option (Except ClipboardError Clipboard) :=
  if bs.length < 8 then some (.error .tooShort)
  else if bs.take 4 ≠ magic then some (.error .badMagic)
  else
    let found := ofLittleEndian ((bs.drop 4).take 4)
    if found ≠ version then some (.error (.unsupportedVersion found))
    else
      match readStored (bs.drop 8) with
      | none => some (.error .undecodable)
      | some (stored, _) => ofStored? stored

end Clipboard

end VoxelEdit
