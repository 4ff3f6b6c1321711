import VoxelEdit.Grid.Box

/-!
# Variables of formulas

Named values. A position in a box has twelve of them: its coordinates, the same from the
smallest corner, the same scaled to run from -1 to 1 across the box, and the size of the box.
-/

namespace VoxelEdit

/-- Named values, each name once. -/
structure Variables where
  values : List (String × Float)

namespace Variables

/-- No values. -/
def empty : Variables := ⟨[]⟩

/-- Sets a name of a list of values. -/
def setIn (values : List (String × Float)) (name : String) (v : Float) : List (String × Float) :=
  match values with
  | [] => [(name, v)]
  | (k, old) :: rest => if k = name then (k, v) :: rest else (k, old) :: setIn rest name v

/-- The values with one of them set. -/
def set (vars : Variables) (name : String) (v : Float) : Variables := ⟨setIn vars.values name v⟩

/-- The value of a name. -/
def get? (vars : Variables) (name : String) : Option Float := vars.values.lookup name

/-- A coordinate scaled to run from -1 at `lo` to 1 at `hi`; zero where they are equal. -/
def scaled (p lo hi : Int) : Float :=
  let half := Float.ofInt (hi - lo) / 2.0
  if half > 0.0 then (Float.ofInt p - (Float.ofInt lo + half)) / half else 0.0

/-- The values of a position in a box. -/
def ofPosition (p : Pos) (b : Box) : Variables :=
  let r := p - b.min
  let d := b.dims
  ⟨[("x", .ofInt p.x), ("y", .ofInt p.y), ("z", .ofInt p.z),
    ("rx", .ofInt r.x), ("ry", .ofInt r.y), ("rz", .ofInt r.z),
    ("u", scaled p.x b.min.x b.max.x), ("v", scaled p.y b.min.y b.max.y),
    ("w", scaled p.z b.min.z b.max.z),
    ("sx", .ofInt d.x), ("sy", .ofInt d.y), ("sz", .ofInt d.z)]⟩

end Variables

end VoxelEdit
