/-!
# Kinds of regions

The five shapes that a selection can have, with the numbers that stand for them in stored
regions.
-/

namespace VoxelEdit

/-- The shape of a selection. -/
inductive RegionKind where
  | cuboid | expand | sphere | polygon | convex
deriving DecidableEq, Repr, Inhabited

namespace RegionKind

/-- All kinds in the order of their numbers. -/
def all : List RegionKind := [.cuboid, .expand, .sphere, .polygon, .convex]

/-- The number of a kind. -/
def id : RegionKind → Int
  | .cuboid => 0
  | .expand => 1
  | .sphere => 2
  | .polygon => 3
  | .convex => 4

/-- The kind of a number. -/
def ofId? (n : Int) : Option RegionKind := all.find? fun k => k.id == n

/-- The name of a kind. -/
def name : RegionKind → String
  | .cuboid => "cuboid"
  | .expand => "expand"
  | .sphere => "sphere"
  | .polygon => "poly"
  | .convex => "convex"

/-- The kind of a name in lower case. -/
def ofLowerName? (s : String) : Option RegionKind :=
  if s = "polygon" then some .polygon else all.find? fun k => k.name == s

/-- The kind of a name in any case of ASCII letters, or the name in lower case. -/
def ofName? (s : String) : Except String RegionKind :=
  let lower := String.ofList (s.toList.map Char.toLower)
  match ofLowerName? lower with
  | some k => .ok k
  | none => .error lower

/-- The message for a name that is no kind. -/
def unknownMessage (name : String) : String := "Unknown region type '" ++ name ++ "'"

end RegionKind

end VoxelEdit
