import VoxelEdit.Grid.Pos

/-!
# Voxel lines

The positions on the way from one block to another. On every axis an error term starts at half
the number of steps and loses the distance along that axis at each step; the coordinate moves
when the error turns negative.
-/

namespace VoxelEdit

/-- One axis of a line: the coordinate, the error, the distance and the direction. -/
structure Track where
  value : Int
  error : Int
  length : Int
  toward : Int
deriving DecidableEq, Repr

namespace Track

/-- The axis at the start of a line of `steps` steps. -/
def start (steps a b : Int) : Track := ⟨a, steps / 2, (b - a).natAbs, if a < b then 1 else -1⟩

/-- The axis after one more step. -/
def next (steps : Int) (t : Track) : Track :=
  let error := t.error - t.length
  if error < 0 then { t with error := error + steps, value := t.value + t.toward }
  else { t with error }

end Track

/-- The positions from here on: this one and `n` more. -/
def linePoints (steps : Int) : (n : Nat) → (x y z : Track) → List Pos
  | 0, x, y, z => [⟨x.value, y.value, z.value⟩]
  | n + 1, x, y, z =>
    ⟨x.value, y.value, z.value⟩ :: linePoints steps n (x.next steps) (y.next steps) (z.next steps)

/-- The voxel line from `a` to `b`, both included. -/
def line (a b : Pos) : List Pos :=
  let d := b - a
  let steps := max d.x.natAbs (max d.y.natAbs d.z.natAbs)
  linePoints steps steps (.start steps a.x b.x) (.start steps a.y b.y) (.start steps a.z b.z)

end VoxelEdit
