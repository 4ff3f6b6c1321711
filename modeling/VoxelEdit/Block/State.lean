import VoxelEdit.Nbt.Tag

/-!
# Block states

A block is a name, a data value and a list of properties. Properties keep the order in which
they were first set, and setting one again changes its value in place.
-/

namespace VoxelEdit

open Nbt

/-- A block: its name, its data value and its properties. -/
structure Block where
  name : String
  data : UInt16
  properties : List (String × String)
deriving DecidableEq, Repr, Inhabited, Hashable

namespace Block

/-- The namespace of names that have none. -/
def defaultNamespace : String := "minecraft"

/-- A name with its namespace. -/
def qualify (name : String) : String :=
  if name.toList.contains ':' then name else defaultNamespace ++ ":" ++ name

/-- The name of the empty block. -/
def airName : String := "minecraft:air"

/-- A block without data and properties. -/
def ofName (name : String) : Block := ⟨name, 0, []⟩

/-- The empty block. -/
def air : Block := ofName airName

/-- Whether a block is empty; only the name counts. -/
def isAir (b : Block) : Bool := b.name == airName

/-- Sets a key of a property list: in place, or else at the end. -/
def setIn (properties : List (String × String)) (key value : String) : List (String × String) :=
  match properties with
  | [] => [(key, value)]
  | (k, v) :: rest => if k = key then (k, value) :: rest else (k, v) :: setIn rest key value

/-- The block with one property set. -/
def set (b : Block) (key value : String) : Block :=
  { b with properties := setIn b.properties key value }

/-- The value of a property. -/
def get? (b : Block) (key : String) : Option String := b.properties.lookup key

/-- The text `name:data[key=value,...]`, without the parts that are zero or empty. -/
def text (b : Block) : String :=
  let data := if b.data = 0 then "" else ":" ++ toString b.data.toNat
  let properties := if b.properties.isEmpty then "" else
    "[" ++ ",".intercalate (b.properties.map fun (k, v) => k ++ "=" ++ v) ++ "]"
  b.name ++ data ++ properties

/-- Before another key and value: by the key, then by the value. -/
def propertyLe (a b : String × String) : Bool :=
  a.1 < b.1 || (a.1 == b.1 && (a.2 < b.2 || a.2 == b.2))

/-- Properties in the order of their keys. -/
def sortProperties (properties : List (String × String)) : List (String × String) :=
  properties.mergeSort propertyLe

/-! ## Tags

Two layouts are read: `Name`, `val` and `Properties`, and the lower-case `name`, `val` and
`states`. Writing uses the first. -/

/-- The fields of a block. -/
def toFields (b : Block) : Fields :=
  let fields := Fields.ofList [("Name", .string b.name)]
  let fields := if b.data = 0 then fields else fields.set "val" (.short b.data.toInt16)
  if b.properties.isEmpty then fields
  else fields.set "Properties"
    (.compound (Fields.ofList (b.properties.map fun (k, v) => (k, .string v))))

/-- The block as a tag. -/
def toTag (b : Block) : Tag := .compound b.toFields

/-- The text of a property's tag; tags of other kinds are passed over. -/
def propertyText? : Tag → Option String
  | .string s => some s
  | .byte v => some (if v = 0 then "false" else "true")
  | .int v => some (toString v.toInt)
  | _ => none

/-- The data value under `val`, cut to sixteen bits. -/
def dataOf (fields : Fields) : UInt16 :=
  match fields.get? "val" with
  | some (.short v) => v.toUInt16
  | some (.int v) => (UInt16.ofInt v.toInt)
  | some (.byte v) => (UInt16.ofInt v.toInt)
  | _ => 0

/-- Reads a block, unless it has no name. -/
def ofFields? (fields : Fields) : Option Block := do
  let name ← fields.string? "Name" <|> fields.string? "name"
  let properties : Fields := (fields.compound? "Properties" <|> fields.compound? "states").getD []
  let known := properties.filterMap fun (k, tag) => (propertyText? tag).map (k, ·)
  some ⟨qualify name, dataOf fields, sortProperties known⟩

/-- The message for a block without a name. -/
def noNameMessage : String := "Failed to get Name"

end Block

end VoxelEdit
