import VoxelEdit.Nbt.Tag
import VoxelEdit.Number.Decimal
import VoxelEdit.Text.Class

/-!
# Compact text of tag trees

The one-line text that messages quote: a suffix letter for every number kind but the plain
one, text bare where it can stand bare, no spaces.
-/

namespace VoxelEdit.Nbt

/-- Text stands bare unless it is empty, could be read as a number, has blank ends or holds a
character with a meaning of its own. -/
def needsQuotes (s : String) : Bool :=
  let cs := s.toList
  let bad (c : Char) := ":,\"'\x7b\x7d[]\\\n\r\t".toList.contains c
  match cs, cs.getLast? with
  | first :: _, some last =>
    first.isDigit || first = '-' || Text.isSpace first || Text.isSpace last || cs.any bad
  | _, _ => true

/-- Text as it stands in a tree's text: bare, or in the quotes that it does not hold. -/
def quoted (s : String) : String :=
  if needsQuotes s then
    let mark := if s.toList.contains '"' then '\'' else '"'
    let escape (c : Char) : List Char :=
      if c = '\n' then ['\\', 'n']
      else if c = '\r' then ['\\', 'r']
      else if c = '\t' then ['\\', 't']
      else if c = '\\' then ['\\', '\\']
      else if c = mark then ['\\', c]
      else [c]
    String.ofList (mark :: s.toList.flatMap escape ++ [mark])
  else s

/-- A number array under its kind's letter. -/
def arrayText (letter : String) (items : List String) : String :=
  "[" ++ letter ++ ";" ++ ",".intercalate items ++ "]"

mutual

/-- The compact text of a tree. -/
def Tag.text : Tag → String
  | .byte v => toString v.toInt ++ "B"
  | .short v => toString v.toInt ++ "S"
  | .int v => toString v.toInt
  | .long v => toString v.toInt ++ "L"
  | .float bits => (Number.single.decode bits.toNat).text Number.single ++ "F"
  | .double bits => (Number.double.decode bits.toNat).text Number.double ++ "D"
  | .bytes vs => arrayText "B" (vs.map (toString ·.toInt))
  | .string s => quoted s
  | .list items => "[" ++ ",".intercalate (itemTexts items) ++ "]"
  | .compound fields => "\x7b" ++ ",".intercalate (fieldTexts fields) ++ "\x7d"
  | .ints vs => arrayText "I" (vs.map (toString ·.toInt))
  | .longs vs => arrayText "L" (vs.map (toString ·.toInt))

/-- The texts of the items of a list. -/
def itemTexts : List Tag → List String
  | [] => []
  | item :: items => item.text :: itemTexts items

/-- The texts of the fields of a compound, each a name, a colon and a value. -/
def fieldTexts : List (String × Tag) → List String
  | [] => []
  | (name, tag) :: fields => (quoted name ++ ":" ++ tag.text) :: fieldTexts fields

end

end VoxelEdit.Nbt
