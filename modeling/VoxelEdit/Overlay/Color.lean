import VoxelEdit.Text.Class

/-!
# Colors

A color is written as a number sign and six or eight digits to the base sixteen, two for each
part; the last two, for the opacity, are left out when it is full. A plus sign may stand for the
first digit of a pair.
-/

namespace VoxelEdit

open Text

/-- A color with its opacity. -/
structure Color where
  red : UInt8
  green : UInt8
  blue : UInt8
  alpha : UInt8
deriving DecidableEq, Repr, Inhabited

namespace Color

/-- A color of full opacity. -/
def solid (red green blue : UInt8) : Color := ⟨red, green, blue, 255⟩

/-- The value of a pair of digits. -/
def pair? (a b : Char) : Option UInt8 := do
  let low ← hexDigit? b
  if a = '+' then return low.toUInt8
  else return (16 * (← hexDigit? a) + low).toUInt8

/-- The values of pairs of digits. -/
def pairs? : List Char → Option (List UInt8)
  | [] => some []
  | a :: b :: rest => do return (← pair? a b) :: (← pairs? rest)
  | _ => none

/-- Reads a color. -/
def ofText? (s : String) : Option Color :=
  match s.toList with
  | '#' :: digits =>
    match pairs? digits with
    | some [r, g, b] => some (solid r g b)
    | some [r, g, b, a] => some ⟨r, g, b, a⟩
    | _ => none
  | _ => none

/-- Two digits to the base sixteen, in upper case. -/
def digits (v : UInt8) : List Char :=
  let digit (n : Nat) : Char := n.digitChar.toUpper
  [digit (v.toNat / 16), digit (v.toNat % 16)]

/-- The text of a color. -/
def text (c : Color) : String :=
  let parts := if c.alpha = 255 then [c.red, c.green, c.blue] else [c.red, c.green, c.blue, c.alpha]
  String.ofList ('#' :: parts.flatMap digits)

/-- The message for a text that is no color. -/
def invalidMessage (s : String) : String := "Invalid color '" ++ s ++ "'"

end Color

/-- The colors of an overlay. -/
structure Colors where
  line : Color
  point : Color
  mainHand : Color
  offHand : Color
deriving DecidableEq, Repr

/-- The colors of an overlay that is given none. -/
def Colors.standard : Colors :=
  ⟨.solid 0xFF 0xEC 0x27, .solid 0x10 0xE4 0x36, .solid 0xFF 0x30 0x40,
    .solid 0x29 0xAD 0xFF⟩

end VoxelEdit
