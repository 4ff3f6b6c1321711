import VoxelEdit.Region.Tags

/-!
# Regions in numbers of fixed width

An outline is tested with numbers of 64 bits, and a hull is found and tested with numbers of 128.
The program stops at a number that does not fit, so that each test here may stop (`none`) where the
one with exact numbers answers. It computes no more numbers than the program: a search ends where it
has found something.
-/

namespace VoxelEdit

open Nbt Number

/-! ## Outlines -/

namespace Polygon

/-- The product of two differences. -/
def product? (a b c d : Int) : Option Int := do
  fit? 64 ((← fit? 64 (a - b)) * (← fit? 64 (c - d)))

/-- Twice the area that `p` spans with the segment from `a` to `b`. -/
def area? (p a b : Column) : Option Int := do
  fit? 64 ((← product? b.x a.x p.z a.z) - (← product? b.z a.z p.x a.x))

/-- Whether `p` lies on the segment from `a` to `b`. -/
def onSegment? (p a b : Column) : Option Bool := do
  return (← area? p a b) == 0 && alongside p a b

/-- Whether the ray from `p` crosses the edge from `a` to `b`. -/
def crosses? (p a b : Column) : Option Bool :=
  if straddles p a b then do
    let left ← product? p.x a.x b.z a.z
    let right ← product? b.x a.x p.z a.z
    return if b.z > a.z then left < right else left > right
  else some false

/-- Goes along the edges up to one that `p` lies on, and tells on which side of the others it is. -/
def walk? (p : Column) : (inside : Bool) → List (Column × Column) → Option Bool
  | inside, [] => some inside
  | inside, (a, b) :: edges => do
    if ← onSegment? p a b then return true
    walk? p (inside != (← crosses? p a b)) edges

/-- Whether a column lies inside an outline or on it. -/
def encloses? (points : List Column) (p : Column) : Option Bool := walk? p false (ring points)

/-- Whether a position lies in the prism. -/
def contains? (g : Polygon) (p : Pos) : Option Bool :=
  if g.minY ≤ p.y && p.y ≤ g.maxY then encloses? g.points ⟨p.x, p.z⟩ else some false

end Polygon

/-! ## Vectors -/

namespace Pos

/-- A vector whose coordinates are computed. -/
def fit? (p : Pos) : Option Pos := do
  return ⟨← Number.fit? 128 p.x, ← Number.fit? 128 p.y, ← Number.fit? 128 p.z⟩

/-- The difference. -/
def sub? (a b : Pos) : Option Pos := (a - b).fit?

/-- The inner product. -/
def dot? (a b : Pos) : Option Int := do
  let x ← Number.fit? 128 (a.x * b.x)
  let y ← Number.fit? 128 (a.y * b.y)
  let xy ← Number.fit? 128 (x + y)
  Number.fit? 128 (xy + (← Number.fit? 128 (a.z * b.z)))

/-- A coordinate of a vector product. -/
def minor? (a b c d : Int) : Option Int := do
  Number.fit? 128 ((← Number.fit? 128 (a * b)) - (← Number.fit? 128 (c * d)))

/-- The vector product. -/
def cross? (a b : Pos) : Option Pos := do
  return ⟨← minor? a.y b.z a.z b.y, ← minor? a.z b.x a.x b.z, ← minor? a.x b.y a.y b.x⟩

end Pos

/-! ## Half-spaces -/

namespace HalfSpace

/-- A half-space in lowest terms, which are found from the sizes of its numbers. -/
def reduced? (normal : Pos) (offset : Int) : Option HalfSpace :=
  if [normal.x, normal.y, normal.z, offset].all fun v => Fits 128 v.natAbs then
    some (reduced normal offset)
  else none

/-- The half-space with a given normal whose border goes through `p`. -/
def through? (normal p : Pos) : Option HalfSpace := do reduced? normal (← normal.dot? p)

/-- The half-space on the other side of the border. -/
def flipped? (h : HalfSpace) : Option HalfSpace := do
  return ⟨← (-h.normal).fit?, ← fit? 128 (-h.offset)⟩

/-- Whether a point lies in the half-space. -/
def holds? (h : HalfSpace) (p : Pos) : Option Bool := do return (← h.normal.dot? p) ≤ h.offset

/-- Whether there are points above and below a plane, up to the first one that settles both. -/
def sides? (h : HalfSpace) : (above below : Bool) → List Pos → Option (Bool × Bool)
  | above, below, [] => some (above, below)
  | above, below, p :: points => do
    let excess ← fit? 128 ((← h.normal.dot? p) - h.offset)
    let above := above || excess > 0
    let below := below || excess < 0
    if above && below then return (true, true)
    sides? h above below points

/-- Adds the supporting side of a plane, if there is one and it is new. -/
def support? (points : List Pos) (planes : List HalfSpace) (h : HalfSpace) :
    Option (List HalfSpace) := do
  let (above, below) ← h.sides? false false points
  if above && below then return planes
  let side ← if above then h.flipped? else some h
  return if planes.contains side then planes else planes ++ [side]

/-- Both sides of a plane. -/
def closing? (h : HalfSpace) : Option (List HalfSpace) := do return [h, ← h.flipped?]

end HalfSpace

/-! ## Hulls -/

namespace Hull

open HalfSpace

/-- The hull of one point. -/
def ofPoint? (p : Pos) : Option (List HalfSpace) := do
  let x ← closing? (← reduced? ⟨1, 0, 0⟩ p.x)
  let y ← closing? (← reduced? ⟨0, 1, 0⟩ p.y)
  return x ++ y ++ (← closing? (← reduced? ⟨0, 0, 1⟩ p.z))

/-- The hull of points on a line through `origin`. -/
def ofLine? (points : List Pos) (origin dir : Pos) : Option (List HalfSpace) := do
  let first ← dir.cross? (helper dir)
  let second ← dir.cross? first
  let planes := (← closing? (← through? first origin)) ++ (← closing? (← through? second origin))
  let along ← points.mapM dir.dot?
  let start ← dir.dot? origin
  let planes ← support? points planes (← reduced? dir (along.foldl max start))
  support? points planes (← reduced? dir (along.foldl min start))

/-- Adds the half-space of a pair of points in a plane. -/
def addPair? (points : List Pos) (normal : Pos) (planes : List HalfSpace) :
    Pos × Pos → Option (List HalfSpace)
  | (a, b) => do
    let edge ← b.sub? a
    if edge = .zero then return planes
    support? points planes (← through? (← edge.cross? normal) a)

/-- The hull of points in a plane through `origin`. -/
def ofPlane? (points : List Pos) (origin normal : Pos) : Option (List HalfSpace) := do
  (pairs points).foldlM (addPair? points normal) (← closing? (← through? normal origin))

/-- Adds the half-space of a triple of points. -/
def addTriple? (points : List Pos) (planes : List HalfSpace) :
    Pos × Pos × Pos → Option (List HalfSpace)
  | (a, b, c) => do
    let n ← (← b.sub? a).cross? (← c.sub? a)
    if n = .zero then return planes
    support? points planes (← through? n a)

/-- The hull of points not in one plane. -/
def ofSpace? (points : List Pos) : Option (List HalfSpace) :=
  (triples points).foldlM (addTriple? points) []

/-- The normal of a direction and a point, if the point is not in that direction. -/
def normal? (origin dir p : Pos) : Option (Option Pos) := do
  let n ← dir.cross? (← p.sub? origin)
  return if n = .zero then none else some n

/-- Whether a point lies in the plane through `origin` with a given normal. -/
def level? (origin normal p : Pos) : Option Bool := do
  return (← normal.dot? (← p.sub? origin)) == 0

/-- The half-spaces whose common points are the convex hull. -/
def ofPoints? (points : List Pos) : Option (List HalfSpace) :=
  match points with
  | [] => some []
  | origin :: _ =>
    match points.find? fun p => p ≠ origin with
    | none => ofPoint? origin
    | some far => do
      let dir ← far.sub? origin
      match ← points.findSomeM? (normal? origin dir) with
      | none => ofLine? points origin dir
      | some normal =>
        if ← points.allM (level? origin normal) then ofPlane? points origin normal
        else ofSpace? points

end Hull

/-- Whether a position lies in the hull. -/
def Convex.contains? (c : Convex) (p : Pos) : Option Bool :=
  if c.box.contains p then c.planes.allM fun h => h.holds? p else some false

/-! ## Regions -/

variable {R : Type}

/-- A shape whose half-spaces, if it has some, are found from its points. -/
def Shape.found? : Shape R → Option (Shape R)
  | .convex c => do return .convex { c with planes := ← Hull.ofPoints? c.points }
  | s => some s

variable [Radius R]

/-- Whether a position lies in a shape. -/
def Shape.contains? : Shape R → Pos → Option Bool
  | .polygon g, p => g.contains? p
  | .convex c, p => c.contains? p
  | s, p => some (s.contains p)

namespace Region

/-- Whether a position lies in the region. -/
def contains? (r : Region R) (p : Pos) : Option Bool := r.shape.contains? p

/-- The region that is stored in fields. -/
def load? (fields : Fields) : Option (Except RegionError (Region R)) :=
  match ofFields? fields with
  | .error e => some (.error e)
  | .ok r => do return .ok { r with shape := ← r.shape.found? }

end Region

end VoxelEdit
