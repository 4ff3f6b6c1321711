import VoxelEdit.Block.Entry
import VoxelEdit.Nbt.Text
import VoxelEdit.Pattern.Error
import VoxelEdit.Text.Class

/-!
# Block descriptors

A term of a pattern names one candidate block: by its name, by an old number, by a place in the
palette or by a tag tree. Numbers and data values may be formulas, which depend on the position
and are kept as text.
-/

namespace VoxelEdit

open Nbt Number Text

/-- The weight of a term. -/
inductive Weight where
  | constant (value : Float)
  | formula (text : String)
deriving Repr

/-- The data value of a descriptor; without one, zero is placed and any is matched. -/
inductive DataSpec where
  | any
  | value (v : UInt16)
  | formula (text : String)
deriving DecidableEq, Repr

/-- A candidate block. -/
inductive Descriptor where
  | named (block : Block) (data : DataSpec)
  | legacy (id : Int) (data : DataSpec)
  | legacyFormula (id : String) (data : DataSpec)
  | runtime (id : Nat)
  | runtimeFormula (id : String)
  | tree (entry : Entry)
deriving Repr

namespace Descriptor

/-- Whether the candidate is the same everywhere. -/
def isConstant : Descriptor → Bool
  | .named _ (.formula _) | .legacy _ (.formula _) => false
  | .named _ _ | .legacy _ _ | .runtime _ | .tree _ => true
  | .legacyFormula _ _ | .runtimeFormula _ => false

/-- The place of the palette that a name stands for: `rt` and a number of 32 bits. -/
def runtimeId? (name : String) : Option Nat :=
  match name.toList with
  | 'r' :: 't' :: digits =>
    if digits.isEmpty || !digits.all Char.isDigit then none else bounded? maxWord32 digits
  | _ => none

/-- The descriptor of a name with its states. -/
def ofName (name : String) (states : List (String × String)) (data : DataSpec) : Descriptor :=
  match runtimeId? name with
  | some id => .runtime id
  | none => .named ⟨Block.qualify name, 0, Block.sortProperties states⟩ data

/-- The compounds that stand side by side in a text, each with its braces. `depth` braces and
the string with quote `mark` are open, and `current` holds the compound so far, reversed. What
stands between compounds is passed over. -/
def compounds : (cs : List Char) → (depth : Nat) → (mark : Option Char) →
    (current : List Char) → List (List Char)
  | [], _, _, _ => []
  | '\\' :: d :: cs, depth, some q, current => compounds cs depth (some q) (d :: '\\' :: current)
  | c :: cs, depth, some q, current =>
    compounds cs depth (if c = q then none else some q) (c :: current)
  | c :: cs, depth, none, current =>
    if c = '"' || c = '\'' then compounds cs depth (some c) (c :: current)
    else if c = '\x7b' then
      compounds cs (depth + 1) none (if depth = 0 then [c] else c :: current)
    else if c = '\x7d' && depth > 0 then
      if depth = 1 then (c :: current).reverse :: compounds cs 0 none []
      else compounds cs (depth - 1) none (c :: current)
    else compounds cs depth none (c :: current)

/-- The compounds of a tree's text: those inside doubled braces, or the text itself. -/
def parts (cs : List Char) : List (List Char) :=
  match cs with
  | '\x7b' :: '\x7b' :: rest => compounds ('\x7b' :: rest).dropLast 0 none []
  | _ => [cs]

/-- The block of a compound. -/
def treeBlock (fields : Fields) : Except TreeFault Block :=
  match Block.ofFields? fields with
  | some b => .ok b
  | none => .error .noName

/-- The entry of one to three compounds: the block, the second layer and the block's own tree. -/
def treeEntry (text : String) : Except TreeFault Entry := do
  let ps := parts text.toList
  if ps.isEmpty || ps.length > 3 then throw (.count ps.length)
  match ps.mapM Text.compound? with
  | none => throw .malformed
  | some [] => throw (.count 0)
  | some (first :: rest) =>
    let entry := Entry.ofBlock (← treeBlock first)
    match rest with
    | [] => return entry
    | second :: rest =>
      let entry := entry.withExtra (← treeBlock second)
      match rest with
      | [] => return entry
      | third :: _ => return entry.withEntity third

/-- The descriptor of a tree at `pos`. -/
def ofTree (text : String) (pos : Nat) : Except PatternError Descriptor :=
  match treeEntry text with
  | .ok entry => .ok (.tree entry)
  | .error fault => .error (.badTree pos fault)

end Descriptor

end VoxelEdit
