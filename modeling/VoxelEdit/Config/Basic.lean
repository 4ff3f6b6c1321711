import VoxelEdit.Overlay.Color
import VoxelEdit.Region.Kind

/-!
# Settings

The settings of a server and those that every player has a copy of.
-/

namespace VoxelEdit

/-- The settings of a player: the item that selects, the kind of new regions, the least number of
ticks between two clicks of one hand, and the length of the undo history. -/
structure PlayerConfig where
  wand : String
  kind : RegionKind
  pause : Nat
  historyLength : Nat
deriving DecidableEq, Repr

/-- The settings of a player who has chosen none. -/
def PlayerConfig.standard : PlayerConfig := ⟨"minecraft:wooden_axe", .cuboid, 3, 20⟩

/-- The settings of a server. -/
structure Config where
  version : Int
  maxBrushLength : Nat
  colors : Colors
  player : PlayerConfig
deriving DecidableEq, Repr

/-- The settings of a server that is given none. -/
def Config.standard : Config := ⟨0, 2048, .standard, .standard⟩

end VoxelEdit
