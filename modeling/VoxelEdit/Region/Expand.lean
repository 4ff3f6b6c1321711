import VoxelEdit.Grid.Box

/-!
# Expanding boxes

A box that starts at the main position and grows around every vice position.
-/

namespace VoxelEdit

/-- A box that grows. -/
structure Expand where
  box : Box
deriving DecidableEq, Repr

namespace Expand

/-- Both ends of an axis after one change. -/
def moveEnd (grow : Bool) (lo hi d : Int) : Int × Int :=
  if (d > 0 : Bool) == grow then (lo, hi + d) else (lo + d, hi)

/-- Both corners after one change. -/
def change (grow : Bool) (corners : Pos × Pos) (d : Pos) : Pos × Pos :=
  let (lo, hi) := corners
  let (lx, hx) := moveEnd grow lo.x hi.x d.x
  let (ly, hy) := moveEnd grow lo.y hi.y d.y
  let (lz, hz) := moveEnd grow lo.z hi.z d.z
  (⟨lx, ly, lz⟩, ⟨hx, hy, hz⟩)

/-- The box after a list of changes; its corners are put in order at the end. -/
def resize (e : Expand) (grow : Bool) (changes : List Pos) : Expand :=
  let (lo, hi) := changes.foldl (change grow) (e.box.min, e.box.max)
  ⟨.span lo hi⟩

end Expand

end VoxelEdit
