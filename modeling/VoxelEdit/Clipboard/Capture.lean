import VoxelEdit.Clipboard.Basic
import VoxelEdit.Region.Basic
import VoxelEdit.World.Basic

/-!
# Capturing

A copy of a region: a buffer of the size of its box, with the cells of its positions filled.
-/

namespace VoxelEdit

/-- Copies a region of a world for a player at `player`. -/
def Clipboard.capture {R : Type} [Radius R] (r : Region R) (w : World) (player : Pos) :
    Clipboard :=
  let corner := r.box.min
  let buffer := r.positions.foldl
    (fun c p => c.store (p - corner) (w.get ⟨r.dim, p⟩)) (Clipboard.new r.box.dims)
  { buffer with player, relative := player - corner, used := true }

end VoxelEdit
