import VoxelEdit.Grid.Box

/-!
# Polygons

A vertical prism over a closed outline. A column lies inside if it is on the outline, or if a
ray from it crosses the outline an odd number of times; coordinates are compared by products,
without division.
-/

namespace VoxelEdit

/-- A vertical column of blocks. -/
structure Column where
  x : Int
  z : Int
deriving DecidableEq, Repr

/-- A prism over the outline through `points`, from `minY` to `maxY`. -/
structure Polygon where
  points : List Column
  minY : Int
  maxY : Int
  box : Box
deriving DecidableEq, Repr

namespace Polygon

/-- The box around a prism. -/
def envelope (points : List Column) (minY maxY : Int) : Box :=
  match points with
  | [] => ⟨⟨0, minY, 0⟩, ⟨0, maxY, 0⟩⟩
  | p :: ps =>
    ps.foldl (fun b q => (b.cover ⟨q.x, minY, q.z⟩)) (.span ⟨p.x, minY, p.z⟩ ⟨p.x, maxY, p.z⟩)

/-- The prism of an outline and its lower and upper end. -/
def make (points : List Column) (minY maxY : Int) : Polygon :=
  ⟨points, minY, maxY, envelope points minY maxY⟩

/-- The prism of one position. -/
def ofPoint (p : Pos) : Polygon := make [⟨p.x, p.z⟩] p.y p.y

/-- The outline of a box, each corner once. -/
def boxOutline (b : Box) : List Column :=
  let (a, c) := (b.min, b.max)
  let ring := ([⟨a.x, a.z⟩, ⟨c.x, a.z⟩, ⟨c.x, c.z⟩, ⟨a.x, c.z⟩] : List Column).eraseReps
  if ring.length > 1 && ring.head? == ring.getLast? then ring.dropLast else ring

/-- The prism of a box. -/
def ofBox (b : Box) : Polygon := make (boxOutline b) b.min.y b.max.y

/-- Twice the area that `p` spans with the segment from `a` to `b`; its sign tells the side. -/
def area (p a b : Column) : Int := (b.x - a.x) * (p.z - a.z) - (b.z - a.z) * (p.x - a.x)

/-- Whether `p` lies within the box around the segment from `a` to `b`. -/
def alongside (p a b : Column) : Bool :=
  min a.x b.x ≤ p.x && p.x ≤ max a.x b.x && min a.z b.z ≤ p.z && p.z ≤ max a.z b.z

/-- Whether `p` lies on the segment from `a` to `b`, ends included. -/
def onSegment (p a b : Column) : Bool := area p a b == 0 && alongside p a b

/-- Whether the row of `p` separates `a` from `b`. -/
def straddles (p a b : Column) : Bool := (a.z > p.z : Bool) != (b.z > p.z : Bool)

/-- Whether the ray from `p` crosses the edge from `a` to `b`. -/
def crosses (p a b : Column) : Bool :=
  straddles p a b &&
    let left := (p.x - a.x) * (b.z - a.z)
    let right := (b.x - a.x) * (p.z - a.z)
    if b.z > a.z then left < right else left > right

/-- The edges of the outline: each vertex with the one before it. -/
def ring (points : List Column) : List (Column × Column) :=
  match points.getLast? with
  | none => []
  | some last => points.zip (last :: points)

/-- Whether a column lies inside an outline or on it. -/
def encloses (points : List Column) (p : Column) : Bool :=
  let edges := ring points
  edges.any (fun (a, b) => onSegment p a b) || edges.countP (fun (a, b) => crosses p a b) % 2 == 1

variable (g : Polygon)

/-- The vertices at the lower end. -/
def vertices : List Pos := g.points.map fun c => ⟨c.x, g.minY, c.z⟩

/-- The prism with a new vertex, unless that column is one already. -/
def setVice? (p : Pos) : Option Polygon :=
  if g.points.contains ⟨p.x, p.z⟩ then none
  else some (make (g.points ++ [⟨p.x, p.z⟩]) (min g.minY p.y) (max g.maxY p.y))

/-- Both ends after one vertical change; there is no other. -/
def moveEnds? (grow : Bool) (ends : Int × Int) (d : Pos) : Option (Int × Int) :=
  if d.x ≠ 0 || d.z ≠ 0 then none
  else if (d.y > 0 : Bool) == grow then some (ends.1, ends.2 + d.y)
  else some (ends.1 + d.y, ends.2)

/-- The prism after vertical changes that leave something of it. -/
def resize? (grow : Bool) (changes : List Pos) : Option Polygon := do
  let (lo, hi) ← changes.foldlM (moveEnds? grow) (g.minY, g.maxY)
  if lo ≤ hi then some (make g.points lo hi) else none

/-- The prism moved by `d`. -/
def shift (d : Pos) : Polygon :=
  make (g.points.map fun c => ⟨c.x + d.x, c.z + d.z⟩) (g.minY + d.y) (g.maxY + d.y)

/-- Whether a position lies in the prism. -/
def contains (p : Pos) : Bool :=
  g.minY ≤ p.y && p.y ≤ g.maxY && encloses g.points ⟨p.x, p.z⟩

/-- The sides of the outline: each vertex with the next, but a pair of vertices only once. -/
def sides : List (Column × Column) :=
  match g.points with
  | [] | [_] => []
  | [a, b] => [(a, b)]
  | a :: rest => (a :: rest).zip (rest ++ [a])

/-- The edges of the prism: each side at both ends, then the uprights. -/
def lines : List (Pos × Pos) :=
  let at' (c : Column) (y : Int) : Pos := ⟨c.x, y, c.z⟩
  let level (y : Int) (s : Column × Column) : Pos × Pos := (at' s.1 y, at' s.2 y)
  if g.minY = g.maxY then g.sides.map (level g.minY)
  else
    (g.sides.flatMap fun s => [level g.minY s, level g.maxY s]) ++
      g.points.map fun c => (at' c g.minY, at' c g.maxY)

end Polygon

end VoxelEdit
