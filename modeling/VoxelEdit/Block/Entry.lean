import VoxelEdit.Block.State
import VoxelEdit.Nbt.Binary
import VoxelEdit.Zlib.Wrapped

/-!
# Block entries

All that is stored at one position: the block, a second layer for a block that fills the same
space, and the tag tree of a block that carries one.
-/

namespace VoxelEdit

open Nbt

/-- What stands at a position. -/
structure Entry where
  block : Block
  extra : Option Block
  entity : Option Fields
deriving Repr, Inhabited

namespace Entry

/-- A block on its own. -/
def ofBlock (block : Block) : Entry := ⟨block, none, none⟩

/-- The empty block on its own. -/
def air : Entry := ofBlock .air

/-- The entry with a second layer; an empty block makes no layer. -/
def withExtra (e : Entry) (extra : Block) : Entry :=
  { e with extra := if extra.isAir then none else some extra }

/-- The entry with a tag tree. -/
def withEntity (e : Entry) (fields : Fields) : Entry := { e with entity := some fields }

/-- Empty in both layers and without a tag tree. -/
def isAir (e : Entry) : Bool := e.block.isAir && e.extra.isNone && e.entity.isNone

/-- Equal as values; tag trees compare by `Tag.same`. -/
def same (a b : Entry) : Bool :=
  a.block == b.block && a.extra == b.extra &&
    match a.entity, b.entity with
    | none, none => true
    | some s, some t => Tag.sameFields s t
    | _, _ => false

end Entry

/-- Why a compressed tree cannot be read: the blob is broken, or what it holds is no tree. -/
inductive BlobError where
  | compression
  | tree
deriving DecidableEq, Repr

/-- A tree as a compressed blob; a list of mixed kinds cannot be written. -/
def compress? (fields : Fields) : Except BlobError (List UInt8) :=
  match file? "" fields with
  | some bs => .ok (Zlib.pack bs)
  | none => .error .tree

/-- Reads a compressed blob. -/
def decompress? (bs : List UInt8) : Except BlobError Fields :=
  match Zlib.unpack? bs with
  | none => .error .compression
  | some raw =>
    match ofFile? raw with
    | some (_, fields) => .ok fields
    | none => .error .tree

end VoxelEdit
