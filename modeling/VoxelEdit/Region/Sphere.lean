import VoxelEdit.Grid.Box
import VoxelEdit.Region.Radius

/-!
# Spheres

The positions within a radius of a center block. A vice position outside the sphere makes it
grow, if the larger sphere stays within the coordinates of 32 bits.
-/

namespace VoxelEdit

open Number

/-- A sphere around a block. -/
structure Sphere (R : Type) where
  center : Pos
  radius : R
  box : Box
deriving Repr

namespace Sphere

variable {R : Type} [Radius R]

/-- The box around a sphere. -/
def around (center : Pos) (radius : R) : Box :=
  let r := Pos.splat (Radius.ceil radius)
  .span (center - r) (center + r)

/-- The sphere of a center and a radius that is allowed. -/
def make (center : Pos) (radius : R) : Sphere R := ⟨center, radius, around center radius⟩

/-- A radius, but not less than one half. -/
def atLeastHalf (r : R) : R := if Radius.lt r Radius.half then Radius.half else r

/-- The sphere of one position. -/
def ofPoint (p : Pos) : Sphere R := make p Radius.half

/-- The sphere in the middle of a box with the mean half extent as its radius. -/
def ofBox (b : Box) : Sphere R :=
  let s := b.min + b.max
  make ⟨s.x / 2, s.y / 2, s.z / 2⟩ (atLeastHalf (Radius.sixth b.dims.sum))

/-- Whether a coordinate has at most 32 bits. -/
def inWorld (v : Int) : Bool := minInt32 ≤ v && v ≤ maxInt32

/-- Whether the box around a sphere stays within the world. -/
def fits (center : Pos) (radius : R) : Bool :=
  Radius.isFinite radius &&
    let r := Radius.ceil radius
    r ≤ maxInt32 &&
      [center.x, center.y, center.z].all fun c => inWorld (c + r) && inWorld (c - r)

/-- Half the sum of a list of changes along one axis, if it is the same on all three; the sum
is of magnitudes and the half is kept to 32 bits. -/
def evenChange? (changes : List Pos) : Option Int :=
  let total (axis : Pos → Int) : Nat := changes.foldl (fun n d => n + (axis d).natAbs) 0
  let x := total Pos.x
  let y := total Pos.y
  let z := total Pos.z
  if x = y && y = z then some (((x / 2 : Nat) : Int).bmod (maxWord32 + 1)) else none

variable (s : Sphere R)

/-- The sphere with a new vice position, unless it lies inside or too far out. -/
def setVice? (p : Pos) : Option (Sphere R) :=
  let distance : R := Radius.ofSquare (p.distanceSquared s.center)
  let radius := Radius.plusHalf distance
  if Radius.lt s.radius distance && fits s.center radius then some (make s.center radius) else none

/-- The sphere grown by even changes, unless it would leave the world. -/
def grow? (changes : List Pos) : Option (Sphere R) := do
  let d ← evenChange? changes
  let radius := Radius.plus s.radius d
  if fits s.center radius then some (make s.center radius) else none

/-- The sphere shrunk by even changes, down to one block. -/
def shrink? (changes : List Pos) : Option (Sphere R) := do
  let d ← evenChange? changes
  some (make s.center (atLeastHalf (Radius.plus s.radius (-d))))

/-- The sphere moved by `d`. -/
def shift (d : Pos) : Sphere R := make (s.center + d) s.radius

/-- Whether a position lies in the sphere. -/
def contains (p : Pos) : Bool := Radius.covers s.radius (p.distanceSquared s.center)

end Sphere

end VoxelEdit
