/-!
# JSON values

What a JSON text says, as far as a settings file needs it: of numbers only the whole ones have a
value. Fields keep their order and may repeat.
-/

namespace VoxelEdit.Json

/-- A value. A number has no value if it is not written as a whole number, or is a negative
zero; a text has none if it escapes half of a surrogate pair. -/
inductive Value where
  | null
  | bool (b : Bool)
  | number (whole : Option Int)
  | string (text : Option String)
  | array (items : List Value)
  | object (fields : List (Option String × Value))
deriving Inhabited, Repr

/-! ## Printing -/

/-- A character inside quotes. -/
def escaped (c : Char) : List Char :=
  if c = '"' then ['\\', '"']
  else if c = '\\' then ['\\', '\\']
  else if c = '\n' then ['\\', 'n']
  else if c = '\r' then ['\\', 'r']
  else if c = '\t' then ['\\', 't']
  else if c.toNat = 8 then ['\\', 'b']
  else if c.toNat = 12 then ['\\', 'f']
  else if c.toNat < 32 then
    ['\\', 'u', '0', '0', (c.toNat / 16).digitChar, (c.toNat % 16).digitChar]
  else [c]

/-- A text in quotes. -/
def quoted (s : String) : String := "\"" ++ String.ofList (s.toList.flatMap escaped) ++ "\""

/-- Line starts at a depth of nesting. -/
def margin (depth : Nat) : String := "\n" ++ String.ofList (List.replicate (2 * depth) ' ')

/-- Lines between brackets, or the brackets alone. -/
def block (opening closing : String) (depth : Nat) (lines : List String) : String :=
  if lines.isEmpty then opening ++ closing
  else opening ++ margin (depth + 1) ++ (("," ++ margin (depth + 1)).intercalate lines) ++
    margin depth ++ closing

mutual

/-- A value over several lines, from a depth of nesting on. What has no value is null. -/
def pretty (depth : Nat) : Value → String
  | .null => "null"
  | .bool b => if b then "true" else "false"
  | .number whole => (whole.map toString).getD "null"
  | .string text => (text.map quoted).getD "null"
  | .array items => block "[" "]" depth (prettyItems (depth + 1) items)
  | .object fields => block "\x7b" "\x7d" depth (prettyFields (depth + 1) fields)

/-- The lines of items. -/
def prettyItems (depth : Nat) : List Value → List String
  | [] => []
  | v :: vs => pretty depth v :: prettyItems depth vs

/-- The lines of fields. -/
def prettyFields (depth : Nat) : List (Option String × Value) → List String
  | [] => []
  | (name, v) :: fs =>
    ((name.map quoted).getD "null" ++ ": " ++ pretty depth v) :: prettyFields depth fs

end

end VoxelEdit.Json
