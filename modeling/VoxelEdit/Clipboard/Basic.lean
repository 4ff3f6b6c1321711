import Std.Data.HashMap
import VoxelEdit.Block.Entry
import VoxelEdit.Grid.Box

/-!
# Clipboards

A box of cells, each empty or filled with an entry. A cell holds a number into a palette, so
that equal entries are kept once; entries with a tag tree are always added. An index tells the
number of an entry without a tag tree by its blocks. The player's position at capture is kept as
it was and relative to the box.
-/

namespace VoxelEdit

/-- What the index of a palette tells entries apart by: the block and the second layer. -/
abbrev PaletteKey := Block × Option Block

/-- The blocks of an entry. -/
def Entry.key (e : Entry) : PaletteKey := (e.block, e.extra)

/-- The numbers of the entries of a palette that have no tag tree. -/
abbrev PaletteIndex := Std.HashMap PaletteKey Nat

namespace PaletteIndex

/-- The index after an entry has got a number; entries with a tag tree are left out. -/
def enter (index : PaletteIndex) (e : Entry) (id : Nat) : PaletteIndex :=
  if e.entity.isSome then index else index.insert e.key id

/-- The index of a palette, made anew. Of entries with the same blocks the last one counts. -/
def ofPalette (palette : Array Entry) : PaletteIndex :=
  palette.toList.zipIdx.foldl (fun index (e, id) => index.enter e id) ∅

end PaletteIndex

/-- A buffer of cells over a palette. -/
structure Clipboard where
  size : Pos
  palette : Array Entry
  cells : Array (Option Nat)
  index : PaletteIndex
  player : Pos
  relative : Pos
  used : Bool
deriving Repr

namespace Clipboard

/-- An empty buffer; sizes below one are taken as one. -/
def new (size : Pos) : Clipboard :=
  let size := size.sup (.splat 1)
  ⟨size, #[], Array.replicate (size.x * size.y * size.z).toNat none, ∅, .zero, .zero, false⟩

/-- The buffer of one cell. -/
def unit : Clipboard := new (.splat 1)

variable (c : Clipboard)

/-- The box of local positions. -/
def localBox : Box := .ofSize .zero c.size

/-- The position in the world of the local origin at capture. -/
def origin : Pos := c.player - c.relative

/-- The buffer of the same size without content. -/
def clear : Clipboard := new c.size

/-- The number of filled cells. -/
def count : Nat := c.cells.countP Option.isSome

/-- The number of an entry in the palette, which gets it if the index does not know it. An entry
with a tag tree is always added. -/
def intern (e : Entry) : Nat × Clipboard :=
  match (if e.entity.isSome then none else c.index[e.key]?) with
  | some id => (id, c)
  | none =>
    let id := c.palette.size
    (id, { c with palette := c.palette.push e, index := c.index.enter e id })

/-- The buffer with an entry at a local position that lies inside. -/
def put (p : Pos) (e : Entry) : Clipboard :=
  let i := (c.localBox.indexOf p).toNat
  let (id, c) := c.intern e
  { c with cells := c.cells.setIfInBounds i (some id), used := true }

/-- The buffer with an entry at a local position, unless that lies outside. -/
def store? (p : Pos) (e : Entry) : Option Clipboard :=
  if c.localBox.contains p then some (c.put p e) else none

/-- The buffer with an entry at a local position, or unchanged if that lies outside. -/
def store (p : Pos) (e : Entry) : Clipboard :=
  if c.localBox.contains p then c.put p e else c

/-- The content of a cell by its number. -/
def cell? (i : Int) : Option Nat := (c.cells[i.toNat]?).join

/-- The entry at a local position. -/
def get? (p : Pos) : Option Entry := do
  if c.localBox.contains p then c.palette[← c.cell? (c.localBox.indexOf p)]? else none

/-- The entry at a position of the space that the buffer tiles. -/
def getTiled? (p : Pos) : Option Entry :=
  c.get? ⟨p.x % c.size.x, p.y % c.size.y, p.z % c.size.z⟩

/-- The filled cells in order, with their local positions and palette numbers. -/
def filled : List (Pos × Nat) :=
  c.cells.toList.zipIdx.filterMap fun (id, i) => id.map fun id => (c.localBox.posAt i, id)

/-- The filled cells in order, with their local positions and entries. -/
def toList : List (Pos × Entry) :=
  c.filled.filterMap fun (p, id) => (c.palette[id]?).map fun e => (p, e)

/-- Where the local origin goes on a paste: to where it was, or beside the player as at capture. -/
def anchor (player : Pos) (atOrigin : Bool) : Pos :=
  if atOrigin then c.origin else player - c.relative

/-- The box that a paste at an anchor covers. -/
def footprint (anchor : Pos) : Box := .ofSize anchor c.size

/-- Equal as values; entries compare by `Entry.same`. -/
def same (d : Clipboard) : Bool :=
  c.size == d.size && c.cells == d.cells && c.index == d.index && c.player == d.player &&
    c.relative == d.relative && c.used == d.used && c.palette.size == d.palette.size &&
    (c.palette.zip d.palette).all fun (a, b) => a.same b

end Clipboard

end VoxelEdit
