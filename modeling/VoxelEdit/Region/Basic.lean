import VoxelEdit.Region.Convex
import VoxelEdit.Region.Cuboid
import VoxelEdit.Region.Expand
import VoxelEdit.Region.Kind
import VoxelEdit.Region.Polygon
import VoxelEdit.Region.Sphere

/-!
# Regions

A selection is a shape in one dimension. An operation that may be refused answers with the
region that it makes, or with nothing; a refused one has no effect.
-/

namespace VoxelEdit

/-- A shape. -/
inductive Shape (R : Type) where
  | cuboid (c : Cuboid)
  | expand (e : Expand)
  | sphere (s : Sphere R)
  | polygon (g : Polygon)
  | convex (c : Convex)
deriving Repr

/-- An operation that changes the extent of a region. -/
inductive Resize where
  | expand | contract
deriving DecidableEq, Repr

namespace Shape

variable {R : Type}

/-- The kind of a shape. -/
def kind : Shape R → RegionKind
  | .cuboid _ => .cuboid
  | .expand _ => .expand
  | .sphere _ => .sphere
  | .polygon _ => .polygon
  | .convex _ => .convex

/-- The box around a shape. -/
def box : Shape R → Box
  | .cuboid c => c.box
  | .expand e => e.box
  | .sphere s => s.box
  | .polygon g => g.box
  | .convex c => c.box

variable [Radius R]

/-- The shape of a kind that holds one position. -/
def ofPoint (k : RegionKind) (p : Pos) : Shape R :=
  match k with
  | .cuboid => .cuboid (.ofPoint p)
  | .expand => .expand ⟨.point p⟩
  | .sphere => .sphere (.ofPoint p)
  | .polygon => .polygon (.ofPoint p)
  | .convex => .convex (.ofPoint p)

/-- The shape of a kind that is made from a box. -/
def ofBox (k : RegionKind) (b : Box) : Shape R :=
  match k with
  | .cuboid => .cuboid (.ofBox b)
  | .expand => .expand ⟨b⟩
  | .sphere => .sphere (.ofBox b)
  | .polygon => .polygon (.ofBox b)
  | .convex => .convex (.ofBox b)

/-- The shape with a new main position. Only a cuboid keeps its vice position. -/
def setMain : Shape R → Pos → Shape R
  | .cuboid c, p => .cuboid (.ofCorners p c.vice)
  | .expand _, p => ofPoint .expand p
  | .sphere _, p => ofPoint .sphere p
  | .polygon _, p => ofPoint .polygon p
  | .convex _, p => ofPoint .convex p

/-- The shape with a new vice position. -/
def setVice? : Shape R → Pos → Option (Shape R)
  | .cuboid c, p => some (.cuboid (.ofCorners c.main p))
  | .expand e, p => some (.expand ⟨e.box.cover p⟩)
  | .sphere s, p => (s.setVice? p).map .sphere
  | .polygon g, p => (g.setVice? p).map .polygon
  | .convex c, p => (c.setVice? p).map .convex

/-- The shape grown or shrunk by a list of changes. -/
def resize? : Shape R → Resize → List Pos → Option (Shape R)
  | .cuboid c, op, ds => some (.cuboid (c.resize (op == .expand) ds))
  | .expand e, op, ds => some (.expand (e.resize (op == .expand) ds))
  | .sphere s, .expand, ds => (s.grow? ds).map .sphere
  | .sphere s, .contract, ds => (s.shrink? ds).map .sphere
  | .polygon g, op, ds => (g.resize? (op == .expand) ds).map .polygon
  | .convex _, _, _ => none

/-- The shape moved by `d`. -/
def shift : Shape R → Pos → Shape R
  | .cuboid c, d => .cuboid (c.shift d)
  | .expand e, d => .expand ⟨e.box.offset d⟩
  | .sphere s, d => .sphere (s.shift d)
  | .polygon g, d => .polygon (g.shift d)
  | .convex c, d => .convex (c.shift d)

/-- Whether a position lies in a shape. -/
def contains : Shape R → Pos → Bool
  | .cuboid c, p => c.box.contains p
  | .expand e, p => e.box.contains p
  | .sphere s, p => s.contains p
  | .polygon g, p => g.contains p
  | .convex c, p => c.contains p

/-- Equal by what defines them; hulls by their points. -/
def same : Shape R → Shape R → Bool
  | .cuboid a, .cuboid b => a == b
  | .expand a, .expand b => a == b
  | .sphere a, .sphere b => a.center == b.center && a.radius == b.radius && a.box == b.box
  | .polygon a, .polygon b => a == b
  | .convex a, .convex b => a.points == b.points
  | _, _ => false

end Shape

/-- A shape in a dimension. -/
structure Region (R : Type) where
  dim : Int
  shape : Shape R
deriving Repr

namespace Region

variable {R : Type}

/-- The kind of a region. -/
def kind (r : Region R) : RegionKind := r.shape.kind

/-- The box around a region. -/
def box (r : Region R) : Box := r.shape.box

/-- The center in space. -/
def center (r : Region R) : Point :=
  match r.shape with
  | .sphere s => s.center.middle
  | _ => r.box.center

/-- The block that holds the center. -/
def centerBlock (r : Region R) : Pos :=
  match r.shape with
  | .sphere s => s.center
  | _ => r.box.centerBlock

/-- Whether a new main position makes the old vice position void. -/
def dropsVice (r : Region R) : Bool :=
  match r.shape with
  | .cuboid _ => false
  | _ => true

/-- The segments that outline a region. -/
def lines (r : Region R) : List (Pos × Pos) :=
  match r.shape with
  | .polygon g => g.lines
  | .convex c => c.lines
  | _ => r.box.edges

variable [Radius R]

/-- The region of one position. -/
def ofPoint (k : RegionKind) (dim : Int) (p : Pos) : Region R := ⟨dim, .ofPoint k p⟩

/-- The region made from a box. -/
def ofBox (k : RegionKind) (dim : Int) (b : Box) : Region R := ⟨dim, .ofBox k b⟩

/-- The region with a new main position. -/
def setMain (r : Region R) (p : Pos) : Region R := { r with shape := r.shape.setMain p }

/-- The region with a new vice position. -/
def setVice? (r : Region R) (p : Pos) : Option (Region R) :=
  (r.shape.setVice? p).map fun shape => { r with shape }

/-- The region grown or shrunk. -/
def resize? (r : Region R) (op : Resize) (ds : List Pos) : Option (Region R) :=
  (r.shape.resize? op ds).map fun shape => { r with shape }

/-- The region moved by `d`. -/
def shift (r : Region R) (d : Pos) : Region R := { r with shape := r.shape.shift d }

/-- Whether a position lies in the region. -/
def contains (r : Region R) (p : Pos) : Bool := r.shape.contains p

/-- The positions of a region in the order of its box. -/
def positions (r : Region R) : List Pos := r.box.positions.filter r.contains

/-- The number of positions. -/
def size (r : Region R) : Int :=
  match r.shape with
  | .cuboid c => c.box.volume
  | .expand e => e.box.volume
  | _ => r.positions.length

/-- Equal as regions. -/
def same (r s : Region R) : Bool := r.dim == s.dim && r.shape.same s.shape

end Region

end VoxelEdit
