import VoxelEdit.Config.Basic
import VoxelEdit.Json.Parser

/-!
# Settings as text

Settings are written as JSON. A group of settings is read from an object by name, where unknown
names are passed over and a known one must not repeat, or from an array by place; what is
missing has its default value.
-/

namespace VoxelEdit

open Json Number

/-- The values of a group under its names, missing ones as such. -/
def group? (names : List String) : Value → Option (List (Option Value))
  | .array items =>
    if items.length ≤ names.length then
      some (items.map some ++ List.replicate (names.length - items.length) none)
    else none
  | .object fields =>
    if fields.all (fun f => f.1.isSome) &&
        names.all (fun name => fields.countP (fun f => f.1 == some name) ≤ 1) then
      some (names.map fun name => fields.lookup (some name))
    else none
  | _ => none

/-- A setting, or its default when it is missing. -/
def setting? {α : Type} (read : Value → Option α) (default : α) : Option Value → Option α
  | none => some default
  | some v => read v

/-- A whole number within bounds. -/
def int? (lo hi : Int) : Value → Option Int
  | .number (some n) => if lo ≤ n && n ≤ hi then some n else none
  | _ => none

/-- A natural number up to `max`. -/
def nat? (max : Nat) (v : Value) : Option Nat := (int? 0 max v).map Int.toNat

/-- A text. -/
def text? : Value → Option String
  | .string s => s
  | _ => none

namespace RegionKind

/-- The name of a kind in settings. -/
def longName (k : RegionKind) : String := if k = .polygon then "polygon" else k.name

/-- A kind of regions: its name, or an object with the name and nothing under it. -/
def ofValue? : Value → Option RegionKind
  | .string (some s) => ofLowerName? s
  | .object [(some s, .null)] => ofLowerName? s
  | _ => none

end RegionKind

/-- A color. -/
def Color.ofValue? (v : Value) : Option Color := do Color.ofText? (← text? v)

/-- The colors of an overlay. -/
def Colors.ofValue? (v : Value) : Option Colors := do
  let d := Colors.standard
  match ← group? ["region_line_color", "region_point_color", "main_hand_color",
      "off_hand_color"] v with
  | [line, point, mainHand, offHand] =>
    return ⟨← setting? Color.ofValue? d.line line, ← setting? Color.ofValue? d.point point,
      ← setting? Color.ofValue? d.mainHand mainHand, ← setting? Color.ofValue? d.offHand offHand⟩
  | _ => none

/-- The settings of a player. -/
def PlayerConfig.ofValue? (v : Value) : Option PlayerConfig := do
  let d := PlayerConfig.standard
  match ← group? ["wand", "default_region_type", "minimum_response_tick", "history_length"] v with
  | [wand, kind, pause, historyLength] =>
    return ⟨← setting? text? d.wand wand, ← setting? RegionKind.ofValue? d.kind kind,
      ← setting? (nat? maxWord64) d.pause pause, ← setting? (nat? maxWord64) d.historyLength historyLength⟩
  | _ => none

namespace Config

/-- The settings of a server. -/
def ofValue? (v : Value) : Option Config := do
  let d := Config.standard
  match ← group? ["version", "maximum_brush_length", "colors", "player_default_config"] v with
  | [version, maxBrushLength, colors, player] =>
    return ⟨← setting? (int? minInt32 maxInt32) d.version version,
      ← setting? (nat? maxWord32) d.maxBrushLength maxBrushLength,
      ← setting? Colors.ofValue? d.colors colors, ← setting? PlayerConfig.ofValue? d.player player⟩
  | _ => none

/-- Reads settings. -/
def ofText? (s : String) : Option Config := do ofValue? (← Json.ofText? s)

/-- An object of named values. -/
def record (fields : List (String × Value)) : Value :=
  .object (fields.map fun (name, v) => (some name, v))

/-- The settings as a value. -/
def toValue (c : Config) : Value :=
  let color (c : Color) : Value := .string c.text
  let number (n : Int) : Value := .number (some n)
  record [("version", number c.version), ("maximum_brush_length", number c.maxBrushLength),
    ("colors", record [("region_line_color", color c.colors.line),
      ("region_point_color", color c.colors.point),
      ("main_hand_color", color c.colors.mainHand), ("off_hand_color", color c.colors.offHand)]),
    ("player_default_config", record [("wand", .string c.player.wand),
      ("default_region_type", .string c.player.kind.longName),
      ("minimum_response_tick", number c.player.pause),
      ("history_length", number c.player.historyLength)])]

/-- The text of settings. -/
def text (c : Config) : String := pretty 0 c.toValue

end Config

end VoxelEdit
