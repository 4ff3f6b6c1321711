import Mathlib
import VoxelEdit.Proofs.WrittenNumbers

/-!
# Decimals without a sign are not below zero

The double nearest to a decimal without a sign has no sign bit, however large or small the decimal
is: `unsignedValue_not_lt_zero`.
-/

namespace VoxelEdit.Number

open Float.Model Float.Model.UnpackedFloat

/-- Without a minus sign. What is no number has no sign at all. -/
def Unsigned : UnpackedFloat → Prop
  | .notANumber => True
  | .infinity s | .zero s | .finite s _ _ _ => s = .positive

theorem Unsigned.not_lt_zero {u : UnpackedFloat} (h : Unsigned u) :
    u.lt (.zero .positive) = false := by
  cases u with
  | notANumber => rfl
  | infinity s | zero s | finite s => cases h; rfl

theorem Unsigned.unpack {b : BitVec 64} (h : @unpackSign .binary64 b = 0#1) :
    Unsigned (UnpackedFloat.unpack .binary64 b) := by
  have hsign : Sign.ofBitVec (@unpackSign .binary64 b) = .positive := by
    rw [h]
    rfl
  unfold UnpackedFloat.unpack
  dsimp only
  split
  · split
    · exact hsign
    · trivial
  · split
    · split
      · exact hsign
      · exact hsign
    · exact hsign

theorem Unsigned.pack {u : UnpackedFloat} (h : Unsigned u) :
    unpackSign (UnpackedFloat.pack .binary64 u) = 0#1 := by
  cases u with
  | notANumber => exact unpackSign_packComponents _ _ _
  | infinity s | zero s =>
    cases h
    exact unpackSign_packComponents _ _ _
  | finite s m e hm =>
    cases h
    unfold UnpackedFloat.pack
    dsimp only
    split
    · exact unpackSign_packComponents _ _ _
    split
    · exact unpackSign_packComponents _ _ _
    · exact unpackSign_packComponents _ _ _

theorem unpackSign_of_lt {b : BitVec 64} (h : b.toNat < 2 ^ 63) :
    @unpackSign .binary64 b = 0#1 := by
  refine BitVec.eq_of_toNat_eq ?_
  show (b.toNat >>> 63) % 2 ^ 1 = 0
  rw [Nat.shiftRight_eq_div_pow]
  omega

/-- A double without a sign bit is not below zero. -/
theorem ofBits_not_lt_zero {b : UInt64} (h : b.toNat < 2 ^ 63) : ¬ Float.ofBits b < 0.0 := by
  have hunsigned : Unsigned (Float.ofBits b).toModel.unpack :=
    Unsigned.unpack (Unsigned.pack (Unsigned.unpack (unpackSign_of_lt h)))
  have hfalse : (Float.ofBits b).toModel.unpack.lt (.zero .positive) = false :=
    hunsigned.not_lt_zero
  intro hlt
  have hmodel : (Float.ofBits b).toModel < (0.0 : Float).toModel := of_decide_eq_true hlt
  have htrue : (Float.ofBits b).toModel.unpack.lt (.zero .positive) = true := hmodel
  exact nomatch hfalse.symm.trans htrue

theorem ofRatio_le (f : Format) (num den : Nat) : f.ofRatio num den ≤ f.infinityBits := by
  unfold Format.ofRatio
  split
  · exact Nat.zero_le _
  · exact Nat.min_le_right _ _

/-- **A decimal without a sign is not below zero.** -/
theorem unsignedValue_not_lt_zero (m : Nat) (e : Int) : ¬ unsignedValue m e < 0.0 := by
  refine ofBits_not_lt_zero ?_
  have hbits : Literal.toBits double (.decimal false m e) ≤ double.infinityBits := by
    unfold Literal.toBits
    dsimp only
    rw [if_neg (by decide), Nat.zero_add]
    split
    · exact Nat.zero_le _
    split
    · exact Nat.le_refl _
    split
    · exact ofRatio_le double _ _
    · exact ofRatio_le double _ _
  have hinfinity : double.infinityBits = 2047 * 2 ^ 52 := by decide
  rw [Nat.toUInt64, UInt64.toNat_ofNat']
  omega

end VoxelEdit.Number
