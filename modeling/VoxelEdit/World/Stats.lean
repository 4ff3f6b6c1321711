import VoxelEdit.Region.Basic
import VoxelEdit.World.Basic

/-!
# Statistics

How many positions of a region hold what. A distribution counts positions by label, the most
frequent first and labels of one count in order.
-/

namespace VoxelEdit

/-- The label of a block: its name without the default namespace, and its states if wanted. -/
def Block.label (b : Block) (withStates : Bool) : String :=
  let cs := b.name.toList
  let space := (defaultNamespace ++ ":").toList
  let name := if space.isPrefixOf cs then String.ofList (cs.drop space.length) else b.name
  if !withStates || (b.properties.isEmpty && b.data = 0) then name
  else
    let data := if b.data = 0 then [] else ["data=" ++ toString b.data.toNat]
    let states := data ++ b.properties.map fun (k, v) => k ++ "=" ++ v
    name ++ " [" ++ ",".intercalate states ++ "]"

/-- The label of an entry, with that of its second layer. -/
def Entry.label (e : Entry) (withStates : Bool) : String :=
  let first := e.block.label withStates
  match e.extra with
  | none => first
  | some extra => first ++ " & " ++ extra.label withStates

/-- How often each label has been met. -/
abbrev Tally := Std.HashMap String Nat

namespace Tally

/-- A label that is met `n` more times. -/
def add (t : Tally) (label : String) (n : Nat) : Tally :=
  t.alter label fun met => some (met.getD 0 + n)

/-- Labels counted one after the other. -/
def count (labels : List String) : Tally := labels.foldl (fun t label => t.add label 1) ∅

/-- A tally and the entries of another one, for labels that are counted in parts. -/
def merge (t : Tally) (entries : List (String × Nat)) : Tally :=
  entries.foldl (fun t (label, n) => t.add label n) t

end Tally

/-- Counts of labels, and their sum. -/
structure Distribution where
  total : Nat
  entries : List (String × Nat)
deriving DecidableEq, Repr

namespace Distribution

/-- The share of a count in the whole, in hundredths. -/
def percent (d : Distribution) (count : Nat) : Float :=
  if d.total = 0 then 0.0 else Float.ofNat count / Float.ofNat d.total * 100.0

/-- Before another entry: by the larger count, then by label. -/
def entryLe (a b : String × Nat) : Bool :=
  a.2 > b.2 || (a.2 == b.2 && (a.1 < b.1 || a.1 == b.1))

/-- The distribution of a number of labels with the entries of their tally. -/
def ofEntries (total : Nat) (entries : List (String × Nat)) : Distribution :=
  ⟨total, entries.mergeSort entryLe⟩

/-- The counts of labels. -/
def ofLabels (labels : List String) : Distribution :=
  ofEntries labels.length (Tally.count labels).toList

end Distribution

namespace Region

variable {R : Type} [Radius R] (r : Region R) (w : World)

/-- What stands at the positions of a region. -/
def entriesIn : List Entry := r.positions.map fun p => w.get ⟨r.dim, p⟩

/-- The number of positions that are not empty. -/
def occupied : Nat := (r.entriesIn w).countP fun e => !e.block.isAir

/-- The number of positions with a block of a name, and of a data value if one is given. -/
def countOf (name : String) (data : Option UInt16) : Nat :=
  let name := Block.qualify name
  (r.entriesIn w).countP fun e =>
    e.block.name == name && (match data with
      | some d => d == e.block.data
      | none => true)

/-- The distribution of labels. -/
def distribution (withStates : Bool) : Distribution :=
  .ofLabels ((r.entriesIn w).map fun e => e.label withStates)

end Region

end VoxelEdit
