/-!
# Tag trees

The named binary tag: numbers of fixed width, text, number arrays, lists and compounds. Floats
are kept as bit patterns, so equality of trees is equality of what is stored. A compound is a
list of fields sorted by name, each name once; `Fields.set` keeps it so, and the last value
written under a name wins.

`Tag.same` is the looser equality of trees as values: floats compare as numbers.
-/

namespace VoxelEdit.Nbt

/-- A tag tree. -/
inductive Tag where
  | byte (value : Int8)
  | short (value : Int16)
  | int (value : Int32)
  | long (value : Int64)
  | float (bits : UInt32)
  | double (bits : UInt64)
  | bytes (values : List Int8)
  | string (value : String)
  | list (items : List Tag)
  | compound (fields : List (String × Tag))
  | ints (values : List Int32)
  | longs (values : List Int64)
deriving Inhabited, Repr

/-- The fields of a compound, sorted by name. -/
abbrev Fields := List (String × Tag)

namespace Fields

/-- Writes a field, replacing one of the same name. -/
def set : Fields → String → Tag → Fields
  | [], name, tag => [(name, tag)]
  | (k, t) :: rest, name, tag =>
    if name = k then (k, tag) :: rest
    else if name < k then (name, tag) :: (k, t) :: rest
    else (k, t) :: set rest name tag

/-- The compound of a list of fields, where later ones win. -/
def ofList (fields : List (String × Tag)) : Fields :=
  fields.foldl (fun fs (name, tag) => set fs name tag) []

/-- The field of a name. -/
def get? (fields : Fields) (name : String) : Option Tag := fields.lookup name

/-- The text under a name. -/
def string? (fields : Fields) (name : String) : Option String :=
  match fields.get? name with
  | some (.string s) => some s
  | _ => none

/-- The 32-bit number under a name. -/
def int? (fields : Fields) (name : String) : Option Int :=
  match fields.get? name with
  | some (.int v) => some v.toInt
  | _ => none

/-- The compound under a name. -/
def compound? (fields : Fields) (name : String) : Option Fields :=
  match fields.get? name with
  | some (.compound fs) => some fs
  | _ => none

end Fields

namespace Tag

/-- The 32-bit number tag of a whole number. -/
def ofInt (v : Int) : Tag := .int (Int32.ofInt v)

/-- The array tag of whole numbers. -/
def ofInts (vs : List Int) : Tag := .ints (vs.map Int32.ofInt)

/-- The double tag of a float. -/
def ofFloat (x : Float) : Tag := .double x.toBits

/-- The number under which the binary form announces a tag. -/
def id : Tag → Nat
  | .byte _ => 1
  | .short _ => 2
  | .int _ => 3
  | .long _ => 4
  | .float _ => 5
  | .double _ => 6
  | .bytes _ => 7
  | .string _ => 8
  | .list _ => 9
  | .compound _ => 10
  | .ints _ => 11
  | .longs _ => 12

mutual

/-- Equal as values: a float differs from itself when it is not a number, and the two zeros
are equal. -/
def same : Tag → Tag → Bool
  | .byte a, .byte b => a == b
  | .short a, .short b => a == b
  | .int a, .int b => a == b
  | .long a, .long b => a == b
  | .float a, .float b => Float32.ofBits a == Float32.ofBits b
  | .double a, .double b => Float.ofBits a == Float.ofBits b
  | .bytes a, .bytes b => a == b
  | .string a, .string b => a == b
  | .list a, .list b => sameItems a b
  | .compound a, .compound b => sameFields a b
  | .ints a, .ints b => a == b
  | .longs a, .longs b => a == b
  | _, _ => false

/-- Lists of the same length whose items are equal in order. -/
def sameItems : List Tag → List Tag → Bool
  | [], [] => true
  | a :: as, b :: bs => same a b && sameItems as bs
  | _, _ => false

/-- Compounds with the same names and equal fields. -/
def sameFields : List (String × Tag) → List (String × Tag) → Bool
  | [], [] => true
  | (k, a) :: as, (l, b) :: bs => k == l && same a b && sameFields as bs
  | _, _ => false

end

end Tag

end VoxelEdit.Nbt
