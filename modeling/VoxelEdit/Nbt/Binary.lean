import VoxelEdit.Nbt.Tag
import VoxelEdit.Number.Width
import VoxelEdit.Text.Bytes

/-!
# The binary form of tag trees

Big-endian, each tag announced by its number. A file is a compound with a name. Writing fails
only on a list whose items are of different kinds; an empty list is written without a kind.
Reading takes a kind of at most twelve for a list and none only for an empty one, keeps the
last of several fields with one name and ignores what follows the root.
-/

namespace VoxelEdit.Nbt

open Text

/-- Text after its length in two bytes. -/
def stringBytes (s : String) : List UInt8 :=
  let bs := paired s
  bigEndian 2 bs.length ++ bs

/-- Numbers of `width` bytes after their count in four. -/
def arrayBytes (width : Nat) (ns : List Nat) : List UInt8 :=
  bigEndian 4 ns.length ++ ns.flatMap (bigEndian width)

mutual

/-- The bytes of a tag without its number and name. -/
def payload? : Tag → Option (List UInt8)
  | .byte v => some (bigEndian 1 v.toUInt8.toNat)
  | .short v => some (bigEndian 2 v.toUInt16.toNat)
  | .int v => some (bigEndian 4 v.toUInt32.toNat)
  | .long v => some (bigEndian 8 v.toUInt64.toNat)
  | .float bits => some (bigEndian 4 bits.toNat)
  | .double bits => some (bigEndian 8 bits.toNat)
  | .bytes vs => some (arrayBytes 1 (vs.map (·.toUInt8.toNat)))
  | .string s => some (stringBytes s)
  | .list [] => some (bigEndian 1 0 ++ bigEndian 4 0)
  | .list (item :: items) => do
    let bs ← itemsBytes? item.id (item :: items)
    some (bigEndian 1 item.id ++ bigEndian 4 (items.length + 1) ++ bs)
  | .compound fields => fieldsBytes? fields
  | .ints vs => some (arrayBytes 4 (vs.map (·.toUInt32.toNat)))
  | .longs vs => some (arrayBytes 8 (vs.map (·.toUInt64.toNat)))

/-- Items one after another, all of the kind `id`. -/
def itemsBytes? (id : Nat) : List Tag → Option (List UInt8)
  | [] => some []
  | item :: items =>
    if item.id = id then do some ((← payload? item) ++ (← itemsBytes? id items)) else none

/-- Fields with their numbers and names, then the closing zero. -/
def fieldsBytes? : List (String × Tag) → Option (List UInt8)
  | [] => some [0]
  | (name, tag) :: fields => do
    some (bigEndian 1 tag.id ++ stringBytes name ++ (← payload? tag) ++ (← fieldsBytes? fields))

end

/-- The file of a compound under a root name. -/
def file? (root : String) (fields : Fields) : Option (List UInt8) := do
  some (bigEndian 1 10 ++ stringBytes root ++ (← payload? (.compound fields)))

/-- A length of four bytes; a negative one is refused. -/
def length? : Decoder Nat := do
  let n ← Decoder.big 4
  if n ≤ Number.maxInt32.toNat then return n else failure

/-- Text after its length. -/
def string? : Decoder String := do
  let bs ← Decoder.bytes (← Decoder.big 2)
  (ofPaired? bs : Option String)

/-- The fields up to the closing zero, onto `fields`; `limit` bounds their number. -/
def fields? (payload : Nat → Decoder Tag) : (limit : Nat) → (fields : Fields) → Decoder Fields
  | 0, _ => failure
  | limit + 1, fields => do
    let id ← Decoder.byte
    if id = 0 then return fields
    else
      let name ← string?
      let tag ← payload id.toNat
      fields? payload limit (fields.set name tag)

/-- The tag of a kind. `depth` bounds the nesting and the fields of one compound; the length of
the input is enough. -/
def tag? : (depth : Nat) → (id : Nat) → Decoder Tag
  | 0, _ => failure
  | depth + 1, id =>
    match id with
    | 1 => do return .byte (← Decoder.byte).toInt8
    | 2 => do return .short (← Decoder.big 2).toUInt16.toInt16
    | 3 => do return .int (← Decoder.big 4).toUInt32.toInt32
    | 4 => do return .long (← Decoder.big 8).toUInt64.toInt64
    | 5 => do return .float (← Decoder.big 4).toUInt32
    | 6 => do return .double (← Decoder.big 8).toUInt64
    | 7 => do return .bytes ((← Decoder.bytes (← length?)).map UInt8.toInt8)
    | 8 => do return .string (← string?)
    | 9 => do
      let kind ← Decoder.byte
      let n ← length?
      if kind > 12 || (kind = 0 && n ≠ 0) then failure
      else return .list (← Decoder.many n (tag? depth kind.toNat))
    | 10 => do return .compound (← fields? (tag? depth) (depth + 1) [])
    | 11 => do return .ints (← Decoder.many (← length?) do
        return (← Decoder.big 4).toUInt32.toInt32)
    | 12 => do return .longs (← Decoder.many (← length?) do
        return (← Decoder.big 8).toUInt64.toInt64)
    | _ => failure

/-- Reads a file: the root's name and its fields. -/
def ofFile? (bs : List UInt8) : Option (String × Fields) := do
  let ((root, fields), _) ← (show Decoder (String × Fields) from do
    if (← Decoder.byte) ≠ 10 then failure
    let root ← string?
    let fields ← fields? (tag? bs.length) (bs.length + 1) []
    return (root, fields)) bs
  some (root, fields)

end VoxelEdit.Nbt
