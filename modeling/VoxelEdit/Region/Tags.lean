import VoxelEdit.Grid.Tags
import VoxelEdit.Nbt.Show
import VoxelEdit.Region.Basic

/-!
# Regions as tags

A stored region holds its kind, its dimension, its box and the fields that define its shape.
The box is there for other readers: reading computes it from the shape, except for an expanding
box, which is defined by it.
-/

namespace VoxelEdit

open Nbt

/-- What is wrong with a field. -/
inductive FieldFault where
  | kind (expected : String) (found : Tag)
  | grid (cause : GridTagError)
  | radius (text : String)
  | outside (radius : String) (center : Pos)
  | oddLength (n : Nat)
  | triples (n : Nat)
  | count (n : Nat)
  | reversed (minY maxY : Int)
deriving Repr

/-- The wording of a fault. -/
def FieldFault.text : FieldFault → String
  | .kind expected found => "expected " ++ expected ++ ", found " ++ found.text
  | .grid cause => cause.message
  | .radius r => r ++ " is not a valid radius"
  | .outside r center => r ++ " around " ++ center.text ++ " leaves the world"
  | .oddLength n => "length " ++ toString n ++ " is not a positive even number"
  | .triples n => "length " ++ toString n ++ " is not a positive multiple of 3"
  | .count n => "expected 1 to " ++ toString Convex.maxPoints ++ " points, found " ++ toString n
  | .reversed minY maxY => toString minY ++ " is above maxY " ++ toString maxY

/-- Why a tag is no region. -/
inductive RegionError where
  | missing (field : String)
  | invalid (field : String) (fault : FieldFault)
  | unknownKind (id : Int)
deriving Repr

/-- The message of an error. -/
def RegionError.message : RegionError → String
  | .missing field => "Missing region field '" ++ field ++ "'"
  | .invalid field fault => "Invalid region field '" ++ field ++ "': " ++ fault.text
  | .unknownKind id => "Unknown region type " ++ toString id

namespace Region

/-! ## Fields -/

/-- A field of any sort. -/
def tagField (fields : Fields) (name : String) : Except RegionError Tag :=
  match fields.get? name with
  | some tag => .ok tag
  | none => .error (.missing name)

/-- A number. -/
def intField (fields : Fields) (name : String) : Except RegionError Int := do
  match ← tagField fields name with
  | .int v => return v.toInt
  | tag => throw (.invalid name (.kind "int" tag))

/-- An array of numbers. -/
def intsField (fields : Fields) (name : String) : Except RegionError (List Int) := do
  match ← tagField fields name with
  | .ints vs => return vs.map Int32.toInt
  | tag => throw (.invalid name (.kind "int array" tag))

/-- A position. -/
def posField (fields : Fields) (name : String) : Except RegionError Pos := do
  match Pos.ofTag? (← tagField fields name) with
  | .ok p => return p
  | .error cause => throw (.invalid name (.grid cause))

/-- A box. -/
def boxField (fields : Fields) (name : String) : Except RegionError Box := do
  match Box.ofTag? (← tagField fields name) with
  | .ok b => return b
  | .error cause => throw (.invalid name (.grid cause))

/-- The columns in a flat list of coordinates. -/
def columns : List Int → List Column
  | x :: z :: rest => ⟨x, z⟩ :: columns rest
  | _ => []

/-- The positions in a flat list of coordinates. -/
def triples : List Int → List Pos
  | x :: y :: z :: rest => ⟨x, y, z⟩ :: triples rest
  | _ => []

/-! ## Shapes -/

variable {R : Type} [Radius R]

/-- The fields of a shape. -/
def shapeFields : Shape R → List (String × Tag)
  | .cuboid c => [("mainPos", c.main.toTag), ("vicePos", c.vice.toTag)]
  | .expand _ => []
  | .sphere s => [("center", s.center.toTag), ("radius", Radius.toTag s.radius)]
  | .polygon g => [("points", .ofInts (g.points.flatMap fun c => [c.x, c.z])),
      ("minY", .ofInt g.minY), ("maxY", .ofInt g.maxY)]
  | .convex c => [("points", .ofInts (c.points.flatMap fun p => [p.x, p.y, p.z]))]

/-- Reads a cuboid. -/
def cuboidOf (fields : Fields) : Except RegionError Cuboid := do
  let main ← posField fields "mainPos"
  let vice ← posField fields "vicePos"
  return .ofCorners main vice

/-- Reads a sphere, which must have a proper radius and fit into the world. -/
def sphereOf (fields : Fields) : Except RegionError (Sphere R) := do
  let center ← posField fields "center"
  let tag ← tagField fields "radius"
  match Radius.ofTag? tag with
  | none => throw (.invalid "radius" (.kind "double" tag))
  | some (radius : R) =>
    if !Radius.isFinite radius || Radius.lt radius Radius.half then
      throw (.invalid "radius" (.radius (Radius.text radius)))
    if !Sphere.fits center radius then
      throw (.invalid "radius" (.outside (Radius.text radius) center))
    return .make center radius

/-- Reads a polygon, which must have a vertex and ends in order. -/
def polygonOf (fields : Fields) : Except RegionError Polygon := do
  let flat ← intsField fields "points"
  if flat.isEmpty || flat.length % 2 ≠ 0 then
    throw (.invalid "points" (.oddLength flat.length))
  let minY ← intField fields "minY"
  let maxY ← intField fields "maxY"
  if minY > maxY then throw (.invalid "minY" (.reversed minY maxY))
  return .make (columns flat) minY maxY

/-- Reads a convex region, which must have points but not too many. -/
def convexOf (fields : Fields) : Except RegionError Convex := do
  let flat ← intsField fields "points"
  if flat.isEmpty || flat.length % 3 ≠ 0 then
    throw (.invalid "points" (.triples flat.length))
  let points := triples flat
  if points.length > Convex.maxPoints then throw (.invalid "points" (.count points.length))
  return .ofPoints points

/-- Reads the shape of a kind. -/
def shapeOf (kind : RegionKind) (fields : Fields) : Except RegionError (Shape R) := do
  match kind with
  | .cuboid => return .cuboid (← cuboidOf fields)
  | .expand => return .expand ⟨← boxField fields "box"⟩
  | .sphere => return .sphere (← sphereOf fields)
  | .polygon => return .polygon (← polygonOf fields)
  | .convex => return .convex (← convexOf fields)

/-! ## Regions -/

/-- The fields of a region. -/
def toFields (r : Region R) : Fields :=
  Fields.ofList ([("type", .ofInt r.kind.id), ("dim", .ofInt r.dim), ("box", r.box.toTag)] ++
    shapeFields r.shape)

/-- Reads a region. -/
def ofFields? (fields : Fields) : Except RegionError (Region R) := do
  let id ← intField fields "type"
  match RegionKind.ofId? id with
  | none => throw (.unknownKind id)
  | some kind =>
    let dim ← intField fields "dim"
    return ⟨dim, ← shapeOf kind fields⟩

end Region

end VoxelEdit
