/-!
# Block positions

A position is a triple of whole numbers; `Facing` names its six neighbours and `Site` tags a
position with the dimension that it lies in.
-/

namespace VoxelEdit

/-- A block position. -/
@[ext] structure Pos where
  x : Int
  y : Int
  z : Int
deriving DecidableEq, Repr, Inhabited, Hashable

namespace Pos

/-- The origin. -/
def zero : Pos := ⟨0, 0, 0⟩

/-- The same coordinate on every axis. -/
def splat (v : Int) : Pos := ⟨v, v, v⟩

instance : Add Pos := ⟨fun a b => ⟨a.x + b.x, a.y + b.y, a.z + b.z⟩⟩
instance : Sub Pos := ⟨fun a b => ⟨a.x - b.x, a.y - b.y, a.z - b.z⟩⟩
instance : Neg Pos := ⟨fun a => ⟨-a.x, -a.y, -a.z⟩⟩

/-- Every coordinate times `k`. -/
def scale (a : Pos) (k : Int) : Pos := ⟨a.x * k, a.y * k, a.z * k⟩

/-- Every coordinate divided by `k` with a remainder that is not negative; no quotient by zero. -/
def quotient? (a : Pos) (k : Int) : Option Pos :=
  if k = 0 then none else some ⟨a.x / k, a.y / k, a.z / k⟩

/-- The smaller coordinate on every axis. -/
def inf (a b : Pos) : Pos := ⟨min a.x b.x, min a.y b.y, min a.z b.z⟩

/-- The larger coordinate on every axis. -/
def sup (a b : Pos) : Pos := ⟨max a.x b.x, max a.y b.y, max a.z b.z⟩

/-- Between two corners, both included, on every axis. -/
def within (p lo hi : Pos) : Bool :=
  lo.x ≤ p.x && p.x ≤ hi.x && lo.y ≤ p.y && p.y ≤ hi.y && lo.z ≤ p.z && p.z ≤ hi.z

/-- The square of the distance between two positions. -/
def distanceSquared (a b : Pos) : Int :=
  (a.x - b.x) * (a.x - b.x) + (a.y - b.y) * (a.y - b.y) + (a.z - b.z) * (a.z - b.z)

/-- The distance between two positions. -/
def distance (a b : Pos) : Float := Float.sqrt (Float.ofInt (a.distanceSquared b))

/-- The sum of the coordinates. -/
def sum (a : Pos) : Int := a.x + a.y + a.z

/-- The text `(x, y, z)`. -/
def text (a : Pos) : String :=
  "(" ++ toString a.x ++ ", " ++ toString a.y ++ ", " ++ toString a.z ++ ")"

end Pos

/-- A point in space. -/
structure Point where
  x : Float
  y : Float
  z : Float

/-- The middle of a block. -/
def Pos.middle (a : Pos) : Point :=
  ⟨Float.ofInt a.x + 0.5, Float.ofInt a.y + 0.5, Float.ofInt a.z + 0.5⟩

/-- The six directions along the axes. -/
inductive Facing where
  | down | up | north | south | west | east
deriving DecidableEq, Repr

namespace Facing

/-- The directions in their fixed order. -/
def all : List Facing := [.down, .up, .north, .south, .west, .east]

/-- The unit step of a direction. -/
def step : Facing → Pos
  | .down => ⟨0, -1, 0⟩
  | .up => ⟨0, 1, 0⟩
  | .north => ⟨0, 0, -1⟩
  | .south => ⟨0, 0, 1⟩
  | .west => ⟨-1, 0, 0⟩
  | .east => ⟨1, 0, 0⟩

/-- The other way. -/
def opposite : Facing → Facing
  | .down => .up
  | .up => .down
  | .north => .south
  | .south => .north
  | .west => .east
  | .east => .west

/-- The name that block properties use. -/
def name : Facing → String
  | .down => "down"
  | .up => "up"
  | .north => "north"
  | .south => "south"
  | .west => "west"
  | .east => "east"

/-- The direction of a name. -/
def ofName? (s : String) : Option Facing := all.find? fun f => f.name == s

/-- The direction of a unit step. -/
def ofStep? (v : Pos) : Option Facing := all.find? fun f => f.step == v

end Facing

/-- One step in a direction. -/
def Pos.move (a : Pos) (f : Facing) : Pos := a + f.step

/-- The six neighbours of a position. -/
def Pos.neighbors (a : Pos) : List Pos := Facing.all.map a.move

/-- A position and the dimension it lies in. -/
structure Site where
  dim : Int
  pos : Pos
deriving DecidableEq, Repr, Inhabited, Hashable

end VoxelEdit
