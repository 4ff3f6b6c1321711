import VoxelEdit.Overlay.Color
import VoxelEdit.Region.Basic

/-!
# Overlays

Shapes drawn over the world. A canvas numbers each drawing, and whoever made it holds the number
until it erases the drawing again. `Region.outline` lists the drawings that show a region.
-/

namespace VoxelEdit

/-- A figure; lines and spheres run through the middles of blocks. -/
inductive Figure (R : Type) where
  | box (b : Box)
  | sphere (center : Pos) (radius : R)
  | line (a b : Pos)
deriving Repr, DecidableEq

/-- A figure in a dimension and a color. -/
structure Drawing (R : Type) where
  dim : Int
  figure : Figure R
  color : Color
deriving Repr, DecidableEq

/-- The drawings that are shown, by their numbers, and how many were made and erased. -/
structure Canvas (R : Type) where
  drawn : Nat
  erased : Nat
  live : List (Nat × Drawing R)
deriving Repr

namespace Canvas

variable {R : Type}

/-- Nothing drawn yet. -/
def blank : Canvas R := ⟨0, 0, []⟩

/-- Adds a drawing and tells its number. -/
def draw (c : Canvas R) (d : Drawing R) : Canvas R × Nat :=
  (⟨c.drawn + 1, c.erased, (c.drawn, d) :: c.live⟩, c.drawn)

/-- Adds drawings and tells their numbers. -/
def drawAll (c : Canvas R) : List (Drawing R) → Canvas R × List Nat
  | [] => (c, [])
  | d :: ds =>
    let (c, id) := c.draw d
    let (c, ids) := drawAll c ds
    (c, id :: ids)

/-- Erases the drawing of a number. -/
def erase (c : Canvas R) (id : Nat) : Canvas R :=
  ⟨c.drawn, c.erased + 1, c.live.filter fun e => e.1 ≠ id⟩

/-- Erases drawings. -/
def eraseAll (c : Canvas R) (ids : List Nat) : Canvas R := ids.foldl erase c

/-- The drawings that are shown. -/
def drawings (c : Canvas R) : List (Drawing R) := c.live.map Prod.snd

end Canvas

/-- The drawings that show a region: a box, or a sphere and its center, or lines and the points
that they join. -/
def Region.outline {R : Type} (r : Region R) (colors : Colors) : List (Drawing R) :=
  let frame (figure : Figure R) : Drawing R := ⟨r.dim, figure, colors.line⟩
  let spot (p : Pos) : Drawing R := ⟨r.dim, .box (.point p), colors.point⟩
  match r.shape with
  | .cuboid _ | .expand _ => [frame (.box r.box)]
  | .sphere s => [frame (.sphere s.center s.radius), spot s.center]
  | .polygon g => (r.lines.map fun (a, b) => frame (.line a b)) ++ g.vertices.map spot
  | .convex c => (r.lines.map fun (a, b) => frame (.line a b)) ++ c.points.map spot

end VoxelEdit
