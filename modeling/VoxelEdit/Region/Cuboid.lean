import VoxelEdit.Grid.Box

/-!
# Cuboids

The box between two picked corners. Growing or shrinking by a change moves, on each axis, the
corner that lies on the side of the change.
-/

namespace VoxelEdit

/-- A box by two opposite corners, the main and the vice position. -/
structure Cuboid where
  main : Pos
  vice : Pos
  box : Box
deriving DecidableEq, Repr

namespace Cuboid

/-- The cuboid of two corners. -/
def ofCorners (main vice : Pos) : Cuboid := ⟨main, vice, .span main vice⟩

/-- The cuboid of one position. -/
def ofPoint (p : Pos) : Cuboid := ofCorners p p

/-- The cuboid of a box. -/
def ofBox (b : Box) : Cuboid := ofCorners b.min b.max

/-- Moves the larger of two coordinates, or the smaller one, by `d`; of two equal ones the
first. -/
def moveSide (m v : Int) (upper : Bool) (d : Int) : Int × Int :=
  if (if upper then m ≥ v else m ≤ v) then (m + d, v) else (m, v + d)

/-- Both corners after one change: outward on the side it points to, or inward from the other. -/
def change (grow : Bool) (corners : Pos × Pos) (d : Pos) : Pos × Pos :=
  let (m, v) := corners
  let (mx, vx) := moveSide m.x v.x ((d.x > 0 : Bool) == grow) d.x
  let (my, vy) := moveSide m.y v.y ((d.y > 0 : Bool) == grow) d.y
  let (mz, vz) := moveSide m.z v.z ((d.z > 0 : Bool) == grow) d.z
  (⟨mx, my, mz⟩, ⟨vx, vy, vz⟩)

/-- The cuboid after a list of changes. -/
def resize (c : Cuboid) (grow : Bool) (changes : List Pos) : Cuboid :=
  let (m, v) := changes.foldl (change grow) (c.main, c.vice)
  ofCorners m v

/-- The cuboid moved by `d`. -/
def shift (c : Cuboid) (d : Pos) : Cuboid := ofCorners (c.main + d) (c.vice + d)

end Cuboid

end VoxelEdit
