import VoxelEdit.Grid.Pos

/-!
# Quarter turns and mirrors

A quarter turn about an axis acts in the plane of the other two, `a` before `b`: within a
buffer of a given size it sends `a` to the old `b` and `b` to the old `a` counted from the far
end. A mirror reverses one axis. Both come with their action on directions.
-/

namespace VoxelEdit

/-- A coordinate axis. -/
inductive Axis where
  | x | y | z
deriving DecidableEq, Repr

namespace Axis

/-- The axes in order. -/
def all : List Axis := [.x, .y, .z]

/-- The letter of an axis. -/
def name : Axis → String
  | .x => "x"
  | .y => "y"
  | .z => "z"

/-- The axis of a letter. -/
def ofName? (s : String) : Option Axis := all.find? fun a => a.name == s

/-- The plane of a turn about an axis. -/
def plane : Axis → Axis × Axis
  | .x => (.y, .z)
  | .y => (.x, .z)
  | .z => (.x, .y)

end Axis

namespace Pos

/-- A coordinate by its axis. -/
def get (p : Pos) : Axis → Int
  | .x => p.x
  | .y => p.y
  | .z => p.z

/-- A position with one coordinate replaced. -/
def set (p : Pos) (axis : Axis) (v : Int) : Pos :=
  match axis with
  | .x => { p with x := v }
  | .y => { p with y := v }
  | .z => { p with z := v }

/-- Where a quarter turn sends a position of a buffer of the given size. -/
def turn (p size : Pos) (axis : Axis) : Pos :=
  let (a, b) := axis.plane
  (p.set a (p.get b)).set b (size.get a - 1 - p.get a)

/-- The size of a buffer after a quarter turn. -/
def turnSize (size : Pos) (axis : Axis) : Pos :=
  let (a, b) := axis.plane
  (size.set a (size.get b)).set b (size.get a)

/-- A position and the size of its buffer after a quarter turn. -/
def turnFrame (axis : Axis) : Pos × Pos → Pos × Pos
  | (p, size) => (p.turn size axis, size.turnSize axis)

/-- Where a quarter turn of a buffer of the given size takes a position from: three more turns
lead back there. -/
def turnBack (p size : Pos) (axis : Axis) : Pos :=
  (Nat.repeat (turnFrame axis) 3 (p, size.turnSize axis)).1

/-- Where a mirror sends a position of a buffer of the given size. -/
def mirror (p size : Pos) (axis : Axis) : Pos := p.set axis (size.get axis - 1 - p.get axis)

/-- Where a quarter turn sends a direction. -/
def turnVector (v : Pos) (axis : Axis) : Pos :=
  let (a, b) := axis.plane
  (v.set a (v.get b)).set b (-v.get a)

/-- Where a mirror sends a direction. -/
def mirrorVector (v : Pos) (axis : Axis) : Pos := v.set axis (-v.get axis)

end Pos

end VoxelEdit
