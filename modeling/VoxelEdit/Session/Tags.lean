import VoxelEdit.Region.Tags
import VoxelEdit.Session.Basic

/-!
# Sessions as tags

A stored session holds the settings, the markers, the hint and the region. What is missing is
unset, and settings that are missing come from the defaults. Clipboard, history, mask and
overlay are not stored.
-/

namespace VoxelEdit

open Nbt

/-- What is wrong with a field of a session. -/
inductive StateFault where
  | expected (what : String)
  | unknownKind (id : Int)
  | site (cause : GridTagError)
deriving DecidableEq, Repr

/-- The wording of a fault. -/
def StateFault.text : StateFault → String
  | .expected what => "expected " ++ what
  | .unknownKind id => "unknown id " ++ toString id
  | .site cause => cause.message

/-- Why bytes are no session: they are no tag tree, a field is wrong, or the region is. -/
inductive StateError where
  | tree
  | invalid (field : String) (fault : StateFault)
  | region (cause : RegionError)
deriving Repr

/-- The message of an error; trees that cannot be read have none. -/
def StateError.message : StateError → String
  | .tree => ""
  | .invalid field fault => "Invalid field '" ++ field ++ "': " ++ fault.text
  | .region cause => "Invalid region: " ++ cause.message

namespace PlayerConfig

/-- The fields of settings. Numbers are cut to the width of their tags. -/
def toFields (c : PlayerConfig) : Fields :=
  Fields.ofList [("wand", .string c.wand), ("defaultRegionType", .ofInt c.kind.id),
    ("minimumResponseTick", .long (Int64.ofNat c.pause)),
    ("historyLength", .int (Int32.ofNat c.historyLength))]

/-- A kind of regions by its number. -/
def kindOf (field : String) (id : Int) : Except StateError RegionKind :=
  match RegionKind.ofId? id with
  | some kind => .ok kind
  | none => .error (.invalid field (.unknownKind id))

/-- A field of settings: read from its tag, or as in the defaults. -/
def setting {α : Type} (fields : Fields) (name what : String) (default : α)
    (read : Tag → Option (Except StateError α)) : Except StateError α :=
  match fields.get? name with
  | none => .ok default
  | some tag => (read tag).getD (.error (.invalid ("config." ++ name) (.expected what)))

/-- Reads settings. -/
def ofFields? (fields : Fields) (defaults : PlayerConfig) : Except StateError PlayerConfig := do
  let wand ← setting fields "wand" "string" defaults.wand fun
    | .string s => some (.ok s)
    | _ => none
  let kind ← setting fields "defaultRegionType" "int" defaults.kind fun
    | .int id => some (kindOf "config.defaultRegionType" id.toInt)
    | _ => none
  let pause ← setting fields "minimumResponseTick" "non-negative long" defaults.pause fun
    | .long v => if v.toInt ≥ 0 then some (.ok v.toInt.toNat) else none
    | _ => none
  let historyLength ← setting fields "historyLength" "non-negative int" defaults.historyLength fun
    | .int v => if v.toInt ≥ 0 then some (.ok v.toInt.toNat) else none
    | _ => none
  return ⟨wand, kind, pause, historyLength⟩

end PlayerConfig

namespace Session

variable {R : Type} [Radius R]

/-- The fields of a session. -/
def toFields (s : Session R) : Fields :=
  let config := [("config", Tag.compound s.config.toFields)]
  let main := (s.mainSite.map fun site => ("mainPos", site.toTag)).toList
  let vice := (s.viceSite.map fun site => ("vicePos", site.toTag)).toList
  let hint := (s.hint.map fun kind => ("regionType", Tag.ofInt kind.id)).toList
  let region := (s.region.map fun r => ("region", Tag.compound r.toFields)).toList
  Fields.ofList (config ++ main ++ vice ++ hint ++ region)

/-- A stored marker, which is not drawn. -/
def markerOf (fields : Fields) (name : String) : Except StateError (Option Marker) :=
  match fields.get? name with
  | none => .ok none
  | some tag =>
    match Site.ofTag? tag with
    | .ok site => .ok (some ⟨site, none⟩)
    | .error cause => .error (.invalid name (.site cause))

/-- A stored hint. -/
def hintOf (fields : Fields) : Except StateError (Option RegionKind) :=
  match fields.get? "regionType" with
  | none => .ok none
  | some (.int id) => do return some (← PlayerConfig.kindOf "regionType" id.toInt)
  | some _ => .error (.invalid "regionType" (.expected "int"))

/-- A stored region. -/
def regionOf (fields : Fields) : Except StateError (Option (Region R)) :=
  match fields.get? "region" with
  | none => .ok none
  | some (.compound fs) =>
    match Region.ofFields? fs with
    | .ok r => .ok (some r)
    | .error cause => .error (.region cause)
  | some _ => .error (.invalid "region" (.expected "compound"))

/-- Stored settings. -/
def configOf (fields : Fields) (defaults : PlayerConfig) : Except StateError PlayerConfig :=
  match fields.get? "config" with
  | none => .ok defaults
  | some (.compound fs) => PlayerConfig.ofFields? fs defaults
  | some _ => .error (.invalid "config" (.expected "compound"))

/-- Reads a session. -/
def ofFields? (fields : Fields) (defaults : PlayerConfig) : Except StateError (Session R) := do
  let config ← configOf fields defaults
  let main ← markerOf fields "mainPos"
  let vice ← markerOf fields "vicePos"
  let hint ← hintOf fields
  let region ← regionOf fields
  return { (Session.new config : Session R) with main, vice, hint, region }

/-- The stored form of a session. -/
def encode? (s : Session R) : Option (List UInt8) := file? "" s.toFields

/-- Reads a stored session. -/
def decode? (bs : List UInt8) (defaults : PlayerConfig) : Except StateError (Session R) :=
  match ofFile? bs with
  | none => .error .tree
  | some (_, fields) => ofFields? fields defaults

end Session

end VoxelEdit
