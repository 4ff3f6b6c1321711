import Std.Data.HashMap
import Std.Data.HashSet
import VoxelEdit.Block.Entry
import VoxelEdit.Grid.Pos

/-!
# Worlds

What stands at each site. A site that nothing was written to is empty, and writing an empty
entry clears the site. A locked site refuses writes.
-/

namespace VoxelEdit

/-- Whether a write tells the neighbours. -/
inductive UpdateMode where
  | quiet | neighbors
deriving DecidableEq, Repr, Inhabited

/-- The entries of a world, its locked sites and the number of its writes, in all and in
neighbour mode. -/
structure World where
  blocks : Std.HashMap Site Entry
  locked : Std.HashSet Site
  writes : Nat
  notified : Nat

namespace World

/-- The empty world. -/
def empty : World := ⟨∅, ∅, 0, 0⟩

/-- What stands at a site. -/
def get (w : World) (s : Site) : Entry := w.blocks.getD s .air

/-- Puts an entry at a site and counts it. -/
def put (w : World) (s : Site) (e : Entry) (mode : UpdateMode) : World :=
  { w with
    blocks := if e.isAir then w.blocks.erase s else w.blocks.insert s e
    writes := w.writes + 1
    notified := if mode = .neighbors then w.notified + 1 else w.notified }

/-- Writes an entry, and whether it was taken. -/
def write (w : World) (s : Site) (e : Entry) (mode : UpdateMode) : World × Bool :=
  if w.locked.contains s then (w, false) else (w.put s e mode, true)

/-- Writes entries in one dimension from first to last, and how many were taken. -/
def writeAll (w : World) (dim : Int) (entries : List (Pos × Entry)) (mode : UpdateMode) :
    World × Nat :=
  entries.foldl (fun (w, n) (p, e) =>
    let (w, taken) := w.write ⟨dim, p⟩ e mode
    (w, if taken then n + 1 else n)) (w, 0)

/-- The number of sites that are not empty. -/
def size (w : World) : Nat := w.blocks.size

/-- The order of sites: by dimension, then by each coordinate. -/
def siteLe (a b : Site) : Bool :=
  let key (s : Site) : List Int := [s.dim, s.pos.x, s.pos.y, s.pos.z]
  !decide (key b < key a)

/-- The sites that are not empty, in order, with their entries. -/
def toList (w : World) : List (Site × Entry) :=
  w.blocks.toList.mergeSort fun a b => siteLe a.1 b.1

end World

end VoxelEdit
