import VoxelEdit.Nbt.Tag
import VoxelEdit.Number.Decimal

/-!
# Radii

What a sphere needs of the numbers that its radius is made of. Distances come in as squares, which
are whole. Doubles are an instance; exact numbers may be another.
-/

namespace VoxelEdit

open Nbt

/-- Numbers that can be the radius of a sphere. -/
class Radius (R : Type) extends BEq R where
  /-- One half. -/
  half : R
  /-- A radius and a whole number. -/
  plus : R → Int → R
  /-- A radius and one half. -/
  plusHalf : R → R
  /-- The distance with a given square. -/
  ofSquare : Int → R
  /-- The sixth part of a whole number. -/
  sixth : Int → R
  /-- Smaller. -/
  lt : R → R → Bool
  /-- Whether a distance with a given square is at most the radius. -/
  covers : R → Int → Bool
  /-- Whether the radius is a finite number. -/
  isFinite : R → Bool
  /-- The smallest whole number that is not below a finite radius. -/
  ceil : R → Int
  /-- The text of a radius. -/
  text : R → String
  /-- The tag that stores a radius. -/
  toTag : R → Tag
  /-- The radius in a tag, if the tag holds a number of this sort. -/
  ofTag? : Tag → Option R

instance : Radius Float where
  half := 0.5
  plus r n := r + Float.ofInt n
  plusHalf r := r + 0.5
  ofSquare d := Float.sqrt (Float.ofInt d)
  sixth n := Float.ofInt n / 6.0
  lt a b := a < b
  covers r d := Float.ofInt d ≤ r * r
  isFinite r := r.isFinite
  ceil r := (Float.ceil r).toInt64.toInt
  text r := Number.text r
  toTag r := .ofFloat r
  ofTag?
    | .double bits => some (Float.ofBits bits)
    | .float bits => some (Float32.ofBits bits).toFloat
    | _ => none

end VoxelEdit
