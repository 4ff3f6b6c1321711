import VoxelEdit.Block.State

/-!
# Block registries

Blocks by their old numbers, and a palette in the order in which blocks were added.
-/

namespace VoxelEdit

/-- A registry: blocks by old number, latest first, and the palette. -/
structure BlockRegistry where
  legacy : List (Int × Block)
  palette : Array Block

namespace BlockRegistry

/-- Adds a block under an old number and at the end of the palette. -/
def register (r : BlockRegistry) (id : Int) (b : Block) : BlockRegistry :=
  ⟨(id, b) :: r.legacy, r.palette.push b⟩

/-- The old numbers that are known from the start. -/
def known : List (Int × String) :=
  [(0, "air"), (1, "stone"), (2, "grass_block"), (3, "dirt"), (4, "cobblestone"), (5, "planks"),
    (7, "bedrock"), (8, "flowing_water"), (9, "water"), (12, "sand"), (13, "gravel"), (17, "log"),
    (20, "glass"), (35, "wool")]

/-- The registry of the known numbers. -/
def standard : BlockRegistry :=
  known.foldl (fun r (id, name) => r.register id (.ofName (Block.qualify name))) ⟨[], #[]⟩

/-- The block of an old number, with the given data value. -/
def byLegacy? (r : BlockRegistry) (id : Int) (data : UInt16) : Option Block :=
  (r.legacy.lookup id).map fun b => { b with data }

/-- The block at a place of the palette. -/
def byRuntime? (r : BlockRegistry) (id : Nat) : Option Block := r.palette[id]?

end BlockRegistry

end VoxelEdit
