import VoxelEdit.Grid.Pos

/-!
# Boxes

A box is given by its smallest and its largest position, both included. Its positions are
walked with `x` fastest, then `z`, then `y`; `indexOf` numbers them in that order and `posAt`
goes back.
-/

namespace VoxelEdit

/-- A box with both corners included. -/
structure Box where
  min : Pos
  max : Pos
deriving DecidableEq, Repr, Inhabited

namespace Box

/-- The box between two opposite corners, in any order. -/
def span (a b : Pos) : Box := ⟨a.inf b, a.sup b⟩

/-- The box of one position. -/
def point (p : Pos) : Box := ⟨p, p⟩

/-- The box that starts at `p` and extends `size` blocks along each axis. -/
def ofSize (p size : Pos) : Box := span p (p + size - .splat 1)

variable (b : Box)

/-- The number of blocks along each axis. -/
def dims : Pos := b.max - b.min + .splat 1

/-- The number of positions. -/
def volume : Int := b.dims.x * b.dims.y * b.dims.z

/-- Whether a position lies in the box. -/
def contains (p : Pos) : Bool := p.within b.min b.max

/-- The center in space, between the outer faces. -/
def center : Point :=
  let mid (lo hi : Int) : Float := (Float.ofInt lo + Float.ofInt hi + 1) / 2
  ⟨mid b.min.x b.max.x, mid b.min.y b.max.y, mid b.min.z b.max.z⟩

/-- The block that holds the center. -/
def centerBlock : Pos :=
  let mid (lo hi : Int) : Int := (lo + hi + 1) / 2
  ⟨mid b.min.x b.max.x, mid b.min.y b.max.y, mid b.min.z b.max.z⟩

/-- The smallest box around two boxes. -/
def merge (c : Box) : Box := ⟨b.min.inf c.min, b.max.sup c.max⟩

/-- The smallest box around a box and a position. -/
def cover (p : Pos) : Box := ⟨b.min.inf p, b.max.sup p⟩

/-- The box moved by `d`. -/
def offset (d : Pos) : Box := ⟨b.min + d, b.max + d⟩

/-- The number of a position in the order of the walk. -/
def indexOf (p : Pos) : Int :=
  let d := b.dims
  let r := p - b.min
  r.x + r.z * d.x + r.y * (d.x * d.z)

/-- The position of a number. -/
def posAt (n : Int) : Pos :=
  let d := b.dims
  b.min + ⟨n % d.x, n / (d.x * d.z), n / d.x % d.z⟩

/-- The whole numbers from `lo` on, `n` of them. -/
def run (lo : Int) (n : Nat) : List Int := (List.range n).map fun (i : Nat) => lo + i

/-- The positions in the order of the walk. -/
def positions : List Pos :=
  (run b.min.y b.dims.y.toNat).flatMap fun y =>
    (run b.min.z b.dims.z.toNat).flatMap fun z =>
      (run b.min.x b.dims.x.toNat).map fun x => ⟨x, y, z⟩

/-- The eight corners, `x` fastest, then `z`, then `y`; a flat box repeats them. -/
def corners : List Pos :=
  [b.min.y, b.max.y].flatMap fun y =>
    [b.min.z, b.max.z].flatMap fun z => [b.min.x, b.max.x].map fun x => ⟨x, y, z⟩

/-- The twelve edges as pairs of corners. -/
def edges : List (Pos × Pos) :=
  let corner (x y z : Bool) : Pos :=
    ⟨if x then b.max.x else b.min.x, if y then b.max.y else b.min.y, if z then b.max.z else b.min.z⟩
  [false, true].flatMap fun i => [false, true].flatMap fun j =>
    [(corner false i j, corner true i j), (corner i false j, corner i true j),
      (corner i j false, corner i j true)]

end Box

/-- A walk through a box that has reached `next?`, or its end. -/
structure Walk where
  box : Box
  next? : Option Pos

namespace Walk

/-- The walk from the first position. -/
def start (b : Box) : Walk := ⟨b, some b.min⟩

/-- The position after `p`: in its row, or at the start of the next row or layer. -/
def onward (b : Box) (p : Pos) : Pos :=
  if p.x + 1 ≤ b.max.x then { p with x := p.x + 1 }
  else if p.z + 1 ≤ b.max.z then ⟨b.min.x, p.y, p.z + 1⟩
  else ⟨b.min.x, p.y + 1, b.min.z⟩

/-- The position after `p`, or nothing once it is above the box. -/
def after (b : Box) (p : Pos) : Option Pos :=
  let q := onward b p
  if q.y ≤ b.max.y then some q else none

/-- One step: the position reached, and the walk from the next one on. -/
def step (w : Walk) : Option (Pos × Walk) :=
  w.next?.map fun p => (p, ⟨w.box, after w.box p⟩)

/-- The number of positions still to come. -/
def remaining (w : Walk) : Int :=
  match w.next? with
  | none => 0
  | some p => w.box.volume - w.box.indexOf p

/-- At most `n` steps: the positions met, and the rest of the walk. -/
def take : (n : Nat) → Walk → List Pos × Walk
  | 0, w => ([], w)
  | n + 1, w =>
    match w.step with
    | none => ([], w)
    | some (p, w) =>
      let (ps, w) := take n w
      (p :: ps, w)

end Walk

end VoxelEdit
