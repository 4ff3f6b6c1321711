/-!
# Widths

Powers of two and ten, the bounds of whole numbers of fixed width, and which numbers fit.
-/

namespace VoxelEdit.Number

/-- A power of two. -/
def pow2 (n : Nat) : Nat := Nat.pow 2 n

/-- A power of ten. -/
def pow10 (n : Nat) : Nat := Nat.pow 10 n

/-- The signed numbers of `n` bits. -/
def Fits (n : Nat) (v : Int) : Prop := -(pow2 (n - 1) : Int) ≤ v ∧ v < pow2 (n - 1)

instance (n : Nat) : DecidablePred (Fits n) :=
  fun v => inferInstanceAs (Decidable (-(pow2 (n - 1) : Int) ≤ v ∧ v < pow2 (n - 1)))

/-- A number that is computed with `n` bits. The program stops if it does not fit. -/
def fit? (n : Nat) (v : Int) : Option Int := if Fits n v then some v else none

/-- The least signed number of 32 bits. -/
abbrev minInt32 : Int := -2147483648

/-- The greatest signed number of 32 bits. -/
abbrev maxInt32 : Int := 2147483647

/-- The least signed number of 64 bits. -/
abbrev minInt64 : Int := -9223372036854775808

/-- The greatest signed number of 64 bits. -/
abbrev maxInt64 : Int := 9223372036854775807

/-- The greatest unsigned number of 16 bits. -/
abbrev maxWord16 : Nat := 65535

/-- The greatest unsigned number of 32 bits. -/
abbrev maxWord32 : Nat := 4294967295

/-- The greatest unsigned number of 64 bits. -/
abbrev maxWord64 : Nat := 18446744073709551615

end VoxelEdit.Number
