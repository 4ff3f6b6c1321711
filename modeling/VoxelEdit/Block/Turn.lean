import VoxelEdit.Block.State
import VoxelEdit.Grid.Axis
import VoxelEdit.Number.Decimal

/-!
# Turning and mirroring blocks

Orientation lives in the properties `facing`, `axis` and `rotation` (sixteen steps about the
vertical), and in the halves `half` and `type`. A turn reads them from the block before it and
writes what the same turn makes of them.
-/

namespace VoxelEdit.Block

open Number

/-- The number under `rotation`, if it is one of 32 bits. -/
def rotation? (b : Block) : Option Int := do
  integer? minInt32 maxInt32 (← b.get? "rotation").toList

/-- Writes `facing` for the direction that `f` makes of the present one. -/
def withFacing (f : Pos → Pos) (source target : Block) : Block :=
  match source.get? "facing" |>.bind Facing.ofName? with
  | some facing =>
    match Facing.ofStep? (f facing.step) with
    | some turned => target.set "facing" turned.name
    | none => target
  | none => target

/-- Writes `rotation` for what `f` makes of the present number. -/
def withRotation (f : Int → Int) (source target : Block) : Block :=
  match source.rotation? with
  | some r => target.set "rotation" (toString (f r))
  | none => target

/-- The block after a quarter turn. -/
def turn (b : Block) (axis : Axis) : Block :=
  let out := withFacing (Pos.turnVector · axis) b b
  let out := match b.get? "axis" |>.bind Axis.ofName? with
    | some own =>
      let (p, q) := axis.plane
      out.set "axis" (if own = p then q else if own = q then p else own).name
    | none => out
  if axis = .y then withRotation (fun r => (r + 12).tmod 16) b out else out

/-- The block after `n` quarter turns. -/
def turns : (n : Nat) → (b : Block) → (axis : Axis) → Block
  | 0, b, _ => b
  | n + 1, b, axis => turns n (b.turn axis) axis

/-- The quarter turns, none to three, that an angle stands for. -/
def quarterTurns (degrees : Int) : Nat := ((degrees.tdiv 90) % 4).toNat

/-- The block turned by an angle, in whole quarter turns. -/
def rotate (b : Block) (axis : Axis) (degrees : Int) : Block := turns (quarterTurns degrees) b axis

/-- Swaps the words `top` and `bottom` under a key. -/
def withHalf (source : Block) (target : Block) (key : String) : Block :=
  match source.get? key with
  | some "top" => target.set key "bottom"
  | some "bottom" => target.set key "top"
  | _ => target

/-- The block mirrored along an axis. -/
def mirror (b : Block) (axis : Axis) : Block :=
  let out := withFacing (Pos.mirrorVector · axis) b b
  match axis with
  | .y => ["half", "type"].foldl (withHalf b) out
  | .x => withRotation (fun r => (16 - r).tmod 16) b out
  | .z => withRotation (fun r => (24 - r).tmod 16) b out

end VoxelEdit.Block
