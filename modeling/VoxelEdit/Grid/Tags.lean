import VoxelEdit.Grid.Box
import VoxelEdit.Nbt.Tag

/-!
# Positions and boxes as tags

A position is an array of three numbers, or a compound of `x`, `y` and `z`; a box is an array
of six numbers; a site is a compound of `dim` and `pos`.
-/

namespace VoxelEdit

open Nbt

/-- Why a tag is no position, site or box. -/
inductive GridTagError where
  | component (name : String)
  | position
  | siteShape
  | dimension
  | noPosition
  | box
deriving DecidableEq, Repr

namespace GridTagError

/-- The text of the error. -/
def message : GridTagError → String
  | .component name => "Invalid block position component " ++ name
  | .position => "Invalid block position tag"
  | .siteShape => "Expected compound for dimension-tagged position"
  | .dimension => "Invalid dim tag"
  | .noPosition => "Failed to get pos"
  | .box => "Invalid bounding box tag"

end GridTagError

/-- A position as an array. -/
def Pos.toTag (p : Pos) : Tag := .ofInts [p.x, p.y, p.z]

/-- A coordinate of a position written as a compound. -/
def component? (fields : Fields) (name : String) : Except GridTagError Int :=
  match fields.int? name with
  | some v => .ok v
  | none => .error (.component name)

/-- Reads a position. -/
def Pos.ofTag? : Tag → Except GridTagError Pos
  | .ints [x, y, z] => .ok ⟨x.toInt, y.toInt, z.toInt⟩
  | .compound fields => do
    let x ← component? fields "x"
    let y ← component? fields "y"
    let z ← component? fields "z"
    return ⟨x, y, z⟩
  | _ => .error .position

/-- A site as a compound. -/
def Site.toTag (s : Site) : Tag :=
  .compound (Fields.ofList [("dim", .ofInt s.dim), ("pos", s.pos.toTag)])

/-- Reads a site. -/
def Site.ofTag? : Tag → Except GridTagError Site
  | .compound fields =>
    match Fields.int? fields "dim" with
    | none => .error .dimension
    | some dim =>
      match Fields.get? fields "pos" with
      | none => .error .noPosition
      | some tag => do return ⟨dim, ← Pos.ofTag? tag⟩
  | _ => .error .siteShape

/-- A box as an array. -/
def Box.toTag (b : Box) : Tag :=
  .ofInts [b.min.x, b.min.y, b.min.z, b.max.x, b.max.y, b.max.z]

/-- Reads a box; its corners may come in any order. -/
def Box.ofTag? : Tag → Except GridTagError Box
  | .ints [a, b, c, d, e, f] =>
    .ok (Box.span ⟨a.toInt, b.toInt, c.toInt⟩ ⟨d.toInt, e.toInt, f.toInt⟩)
  | _ => .error .box

end VoxelEdit
