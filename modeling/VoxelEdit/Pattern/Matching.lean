import VoxelEdit.Block.Registry
import VoxelEdit.Pattern.Basic

/-!
# Matching patterns

A block matches a pattern if it matches one of its candidates. Formulas never match, and neither
does a tiling.
-/

namespace VoxelEdit

/-- Whether a data value is one that a specification admits. -/
def DataSpec.admits : DataSpec → UInt16 → Bool
  | .any, _ => true
  | .value v, data => v == data
  | .formula _, _ => false

/-- Whether a block is the candidate; a name matches whatever other properties the block has. -/
def Descriptor.admits (r : BlockRegistry) (b : Block) : Descriptor → Bool
  | .named wanted data => wanted.name == b.name && data.admits b.data &&
      wanted.properties.all fun (k, v) => b.get? k == some v
  | .legacy id data =>
    ((r.byLegacy? id 0).any fun known => known.name == b.name) && data.admits b.data
  | .runtime id => r.byRuntime? id == some b
  | .tree entry => entry.block == b
  | .legacyFormula _ _ | .runtimeFormula _ => false

/-- Whether a block matches a pattern. -/
def Pattern.admits (pattern : Pattern) (r : BlockRegistry) (b : Block) : Bool :=
  pattern.terms.any fun t => t.descriptor.admits r b

end VoxelEdit
