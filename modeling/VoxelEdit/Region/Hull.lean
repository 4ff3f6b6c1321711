import VoxelEdit.Grid.Pos

/-!
# Convex hulls of whole-number points

The hull as a list of half-spaces `normal · p ≤ offset`, each in lowest terms. Hulls that are
flat, thin or a point are closed by pairs of opposite half-spaces.
-/

namespace VoxelEdit

/-- The inner product. -/
def Pos.dot (a b : Pos) : Int := a.x * b.x + a.y * b.y + a.z * b.z

/-- The vector product. -/
def Pos.cross (a b : Pos) : Pos :=
  ⟨a.y * b.z - a.z * b.y, a.z * b.x - a.x * b.z, a.x * b.y - a.y * b.x⟩

/-- The points `p` with `normal · p ≤ offset`. -/
structure HalfSpace where
  normal : Pos
  offset : Int
deriving DecidableEq, Repr

namespace HalfSpace

/-- A half-space in lowest terms. -/
def reduced (normal : Pos) (offset : Int) : HalfSpace :=
  let g : Int := Int.gcd (Int.gcd (Int.gcd normal.x normal.y) normal.z) offset
  if g > 1 then ⟨⟨normal.x / g, normal.y / g, normal.z / g⟩, offset / g⟩ else ⟨normal, offset⟩

/-- The half-space with a given normal whose border goes through `p`. -/
def through (normal p : Pos) : HalfSpace := reduced normal (normal.dot p)

/-- The half-space on the other side of the border. -/
def flipped (h : HalfSpace) : HalfSpace := ⟨-h.normal, -h.offset⟩

/-- Whether a point lies in the half-space. -/
def holds (h : HalfSpace) (p : Pos) : Bool := h.normal.dot p ≤ h.offset

/-- Whether a point lies on the border. -/
def tight (h : HalfSpace) (p : Pos) : Bool := h.normal.dot p == h.offset

/-- The side of a plane that holds all points, if there is one. -/
def supporting? (points : List Pos) (h : HalfSpace) : Option HalfSpace :=
  let above := points.any fun p => h.normal.dot p - h.offset > 0
  let below := points.any fun p => h.normal.dot p - h.offset < 0
  if above && below then none else some (if above then h.flipped else h)

/-- Adds the supporting side of a plane, if there is one and it is new. -/
def support (points : List Pos) (planes : List HalfSpace) (h : HalfSpace) : List HalfSpace :=
  match supporting? points h with
  | some s => if planes.contains s then planes else planes ++ [s]
  | none => planes

/-- Both sides of a plane. -/
def closing (h : HalfSpace) : List HalfSpace := [h, h.flipped]

end HalfSpace

namespace Hull

open HalfSpace

/-- Every pair of elements, the earlier one first. -/
def pairs {α : Type} : List α → List (α × α)
  | [] => []
  | a :: rest => rest.map (a, ·) ++ pairs rest

/-- Every triple of elements in order. -/
def triples {α : Type} : List α → List (α × α × α)
  | [] => []
  | a :: rest => (pairs rest).map (a, ·) ++ triples rest

/-- The hull of one point. -/
def ofPoint (p : Pos) : List HalfSpace :=
  closing (reduced ⟨1, 0, 0⟩ p.x) ++ closing (reduced ⟨0, 1, 0⟩ p.y) ++
    closing (reduced ⟨0, 0, 1⟩ p.z)

/-- A direction that is not the one of a line. -/
def helper (dir : Pos) : Pos := if dir.x ≠ 0 || dir.y ≠ 0 then ⟨0, 0, 1⟩ else ⟨1, 0, 0⟩

/-- The hull of points on a line through `origin`: two planes through the line, and its ends. -/
def ofLine (points : List Pos) (origin dir : Pos) : List HalfSpace :=
  let first := dir.cross (helper dir)
  let second := dir.cross first
  let planes := closing (through first origin) ++ closing (through second origin)
  let along := points.map dir.dot
  let hi := along.foldl max (dir.dot origin)
  let lo := along.foldl min (dir.dot origin)
  support points (support points planes (reduced dir hi)) (reduced dir lo)

/-- The hull of points in a plane through `origin`: the plane, and a half-space for every pair
with all points on one side. -/
def ofPlane (points : List Pos) (origin normal : Pos) : List HalfSpace :=
  (pairs points).foldl
    (fun planes (a, b) =>
      let edge := b - a
      if edge = .zero then planes else support points planes (through (edge.cross normal) a))
    (closing (through normal origin))

/-- The hull of points not in one plane: a half-space for every triple with all points on one
side. -/
def ofSpace (points : List Pos) : List HalfSpace :=
  (triples points).foldl
    (fun planes (a, b, c) =>
      let n := (b - a).cross (c - a)
      if n = .zero then planes else support points planes (through n a))
    []

/-- The half-spaces whose common points are the convex hull. -/
def ofPoints (points : List Pos) : List HalfSpace :=
  match points with
  | [] => []
  | origin :: _ =>
    match points.find? fun p => p ≠ origin with
    | none => ofPoint origin
    | some far =>
      let dir := far - origin
      match (points.map fun p => dir.cross (p - origin)).find? fun n => n ≠ .zero with
      | none => ofLine points origin dir
      | some normal =>
        if points.all fun p => normal.dot (p - origin) == 0 then ofPlane points origin normal
        else ofSpace points

end Hull

end VoxelEdit
