import VoxelEdit.Grid.Box
import VoxelEdit.Region.Hull

/-!
# Convex regions

The convex hull of the picked points, of which there are at most `maxPoints`.
-/

namespace VoxelEdit

/-- The hull of some points. -/
structure Convex where
  points : List Pos
  planes : List HalfSpace
  box : Box
deriving Repr

namespace Convex

/-- The most points of a region. -/
def maxPoints : Nat := 64

/-- The box around points. -/
def envelope : List Pos → Box
  | [] => .point .zero
  | p :: ps => ps.foldl Box.cover (.point p)

/-- The hull of points. -/
def ofPoints (points : List Pos) : Convex := ⟨points, Hull.ofPoints points, envelope points⟩

/-- The hull of one position. -/
def ofPoint (p : Pos) : Convex := ofPoints [p]

/-- The hull of the corners of a box. -/
def ofBox (b : Box) : Convex := ofPoints b.corners.eraseDups

variable (c : Convex)

/-- The hull with one more point, unless it is there already or there are too many. -/
def setVice? (p : Pos) : Option Convex :=
  if c.points.length ≥ maxPoints || c.points.contains p then none
  else some (ofPoints (c.points ++ [p]))

/-- The hull moved by `d`. -/
def shift (d : Pos) : Convex := ofPoints (c.points.map (· + d))

/-- Whether a position lies in the hull. -/
def contains (p : Pos) : Bool := c.box.contains p && c.planes.all fun h => h.holds p

/-- Whether two points lie on a common edge: on two planes that are not parallel. -/
def onEdge (a b : Pos) : Bool :=
  let normals := (c.planes.filter fun h => h.tight a && h.tight b).map HalfSpace.normal
  (Hull.pairs normals).any fun (n, m) => n.cross m ≠ .zero

/-- The segments between points that lie on edges. -/
def lines : List (Pos × Pos) := (Hull.pairs c.points).filter fun (a, b) => c.onEdge a b

end Convex

end VoxelEdit
