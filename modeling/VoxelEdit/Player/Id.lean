import VoxelEdit.Text.Class

/-!
# Player identities

A number of 128 bits, written as thirty-two digits to the base sixteen in five groups.
-/

namespace VoxelEdit

open Text

/-- The identity of a player. -/
structure PlayerId where
  bits : BitVec 128
deriving DecidableEq, Repr, Inhabited

namespace PlayerId

/-- The number of digits in each group. -/
def groups : List Nat := [8, 4, 4, 4, 12]

/-- The number of digits. -/
def length : Nat := 32

/-- The last `n` digits of a number to the base sixteen. -/
def digits : (n : Nat) → (bits : Nat) → List Char
  | 0, _ => []
  | n + 1, bits => digits n (bits / 16) ++ [(bits % 16).digitChar]

/-- Cuts a list into pieces of given lengths. -/
def cut {α : Type} : (lengths : List Nat) → List α → List (List α)
  | [], _ => []
  | n :: ns, xs => xs.take n :: cut ns (xs.drop n)

/-- The text of an identity, in lower case. -/
def text (id : PlayerId) : String :=
  "-".intercalate ((cut groups (digits length id.bits.toNat)).map String.ofList)

/-- Reads an identity, in groups or in one piece. -/
def ofText? (s : String) : Option PlayerId := do
  let pieces := pieces '-' s.toList
  let lengths := pieces.map List.length
  if lengths = groups || lengths = [length] then
    let values ← pieces.flatten.mapM hexDigit?
    return ⟨.ofNat 128 (values.foldl (fun n d => 16 * n + d) 0)⟩
  else none

end PlayerId

end VoxelEdit
