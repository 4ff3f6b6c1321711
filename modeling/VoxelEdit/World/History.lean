import VoxelEdit.World.Basic

/-!
# Undo and redo

A snapshot holds what stood at some positions. Restoring it leaves behind the snapshot that
restores the present state. A history keeps two stacks of snapshots, newest first; the one for
undo is limited, and a new edit empties the one for redo.
-/

namespace VoxelEdit

/-- What stood at positions of one dimension, in the order in which they were recorded. -/
structure Snapshot where
  dim : Int
  blocks : List (Pos × Entry)
deriving Repr

namespace Snapshot

/-- What stands at positions now. -/
def capture (w : World) (dim : Int) (ps : List Pos) : Snapshot :=
  ⟨dim, ps.map fun p => (p, w.get ⟨dim, p⟩)⟩

/-- The number of recorded positions. -/
def size (s : Snapshot) : Nat := s.blocks.length

/-- Writes the snapshot back, last entry first, so that a position recorded twice gets its first
content. Returns the inverse snapshot. -/
def restore (s : Snapshot) (w : World) (mode : UpdateMode) : Snapshot × World :=
  (capture w s.dim (s.blocks.map Prod.fst), (w.writeAll s.dim s.blocks.reverse mode).1)

end Snapshot

/-- The snapshots to undo and to redo, newest first, and the most of the former. -/
structure History where
  undos : List Snapshot
  redos : List Snapshot
  limit : Nat
deriving Repr

namespace History

/-- No snapshots. -/
def empty (limit : Nat) : History := ⟨[], [], limit⟩

/-- The history under another limit. -/
def setLimit (h : History) (limit : Nat) : History :=
  { h with undos := h.undos.take limit, limit }

/-- Adds the snapshot of an edit. An empty one is dropped, and so is any under limit zero. -/
def record (h : History) (s : Snapshot) : History :=
  if s.blocks.isEmpty || h.limit = 0 then h
  else { h with undos := (s :: h.undos).take h.limit, redos := [] }

/-- Restores the newest snapshot to undo, and how many positions it held. -/
def undo? (h : History) (w : World) (mode : UpdateMode) : Option (Nat × History × World) :=
  match h.undos with
  | [] => none
  | s :: rest =>
    let (inverse, w) := s.restore w mode
    some (s.size, { h with undos := rest, redos := inverse :: h.redos }, w)

/-- Restores the newest snapshot to redo, and how many positions it held. -/
def redo? (h : History) (w : World) (mode : UpdateMode) : Option (Nat × History × World) :=
  match h.redos with
  | [] => none
  | s :: rest =>
    let (inverse, w) := s.restore w mode
    some (s.size, { h with undos := (inverse :: h.undos).take h.limit, redos := rest }, w)

/-- The history without snapshots. -/
def clear (h : History) : History := empty h.limit

end History

end VoxelEdit
