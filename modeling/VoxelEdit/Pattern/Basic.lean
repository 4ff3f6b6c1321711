import VoxelEdit.Grid.Pos
import VoxelEdit.Pattern.Descriptor

/-!
# Patterns

A pattern is a list of weighted terms, or a tiling of space by the clipboard.
-/

namespace VoxelEdit

/-- A weighted candidate. -/
structure Term where
  weight : Weight
  descriptor : Descriptor
deriving Repr

/-- How the clipboard is laid over a region: from its center or its smallest corner, moved back
by an offset. -/
structure Tiling where
  centered : Bool
  offset : Pos
deriving DecidableEq, Repr

/-- What a pattern draws from. -/
inductive Source where
  | terms (terms : List Term)
  | clipboard (tiling : Tiling)
deriving Repr

/-- A pattern and the text that it was read from. -/
structure Pattern where
  text : String
  source : Source
deriving Repr

namespace Pattern

/-- The terms of a pattern; a tiling has none. -/
def terms (p : Pattern) : List Term :=
  match p.source with
  | .terms ts => ts
  | .clipboard _ => []

/-- The tiling of a pattern. -/
def tiling? (p : Pattern) : Option Tiling :=
  match p.source with
  | .terms _ => none
  | .clipboard t => some t

end Pattern

end VoxelEdit
