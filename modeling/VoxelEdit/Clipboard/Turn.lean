import VoxelEdit.Block.Turn
import VoxelEdit.Clipboard.Basic

/-!
# Turning and mirroring clipboards

The cells, the player's relative position and the blocks of the palette are moved by the same
map. As the blocks change, the index of the palette is made anew.
-/

namespace VoxelEdit.Clipboard

/-- The entry with both blocks changed. -/
def mapBlocks (f : Block → Block) (e : Entry) : Entry :=
  { e with block := f e.block, extra := e.extra.map f }

variable (c : Clipboard)

/-- The clipboard with all blocks of its palette changed. -/
def mapPalette (f : Block → Block) : Clipboard :=
  let palette := c.palette.map (mapBlocks f)
  { c with palette, index := .ofPalette palette }

/-- The cells of a buffer of size `size` that takes each of them from where `source` tells. -/
def moveCells (size : Pos) (source : Pos → Pos) : Array (Option Nat) :=
  let target := Box.ofSize .zero size
  (Array.range c.cells.size).map fun (i : Nat) => c.cell? (c.localBox.indexOf (source (target.posAt i)))

/-- The clipboard after a quarter turn. -/
def turn (axis : Axis) : Clipboard :=
  let size := c.size.turnSize axis
  let moved := { c with
    size
    cells := c.moveCells size fun p => p.turnBack c.size axis
    relative := c.relative.turn c.size axis }
  moved.mapPalette fun b => b.turn axis

/-- The clipboard after `n` quarter turns. -/
def turns : (n : Nat) → (c : Clipboard) → (axis : Axis) → Clipboard
  | 0, c, _ => c
  | n + 1, c, axis => turns n (c.turn axis) axis

/-- The clipboard turned by angles about the three axes in order, which must be multiples of a
right angle. -/
def rotate? (angles : Pos) : Option Clipboard :=
  if Axis.all.all fun axis => angles.get axis % 90 = 0 then
    some (Axis.all.foldl (fun c axis => turns (angles.get axis / 90 % 4).toNat c axis) c)
  else none

/-- The clipboard mirrored along an axis. -/
def mirror (axis : Axis) : Clipboard :=
  let moved := { c with
    cells := c.moveCells c.size fun p => p.mirror c.size axis
    relative := c.relative.mirror c.size axis }
  moved.mapPalette fun b => b.mirror axis

end VoxelEdit.Clipboard
