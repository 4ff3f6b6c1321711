import VoxelEdit.Text.Blank
import VoxelEdit.Text.Class

/-!
# Classes of characters as ranges of numbers

Each class of characters that readers look for, as ranges of code points. That one class leaves out
another is then linear arithmetic.
-/

namespace VoxelEdit.Text

theorem char_eq_iff {a b : Char} : a = b ↔ a.toNat = b.toNat :=
  ⟨congrArg Char.toNat, fun h => Char.ext (UInt32.toNat_inj.1 h)⟩

theorem isDigit_iff {a : Char} : a.isDigit = true ↔ 48 ≤ a.toNat ∧ a.toNat ≤ 57 := by
  simp [Char.isDigit, UInt32.le_iff_toNat_le]

theorem isAlpha_iff {a : Char} : a.isAlpha = true ↔
    65 ≤ a.toNat ∧ a.toNat ≤ 90 ∨ 97 ≤ a.toNat ∧ a.toNat ≤ 122 := by
  have halpha : a.isAlpha = (decide (a.val ≥ 65 ∧ a.val ≤ 90) ||
      decide (a.val ≥ 97) && decide (a.val ≤ 122)) := rfl
  simp [halpha, UInt32.le_iff_toNat_le]

theorem isWord_iff {a : Char} : isWord a = true ↔ 65 ≤ a.toNat ∧ a.toNat ≤ 90 ∨
    97 ≤ a.toNat ∧ a.toNat ≤ 122 ∨ 48 ≤ a.toNat ∧ a.toNat ≤ 57 ∨ a.toNat = 95 := by
  simp only [isWord, Char.isAlphanum, Bool.or_eq_true, isAlpha_iff, isDigit_iff, decide_eq_true_eq,
    char_eq_iff, Char.reduceToNat, or_assoc]

theorem isNameStart_iff {a : Char} : (a.isAlpha || a = '_') = true ↔ 65 ≤ a.toNat ∧ a.toNat ≤ 90 ∨
    97 ≤ a.toNat ∧ a.toNat ≤ 122 ∨ a.toNat = 95 := by
  simp only [Bool.or_eq_true, isAlpha_iff, decide_eq_true_eq, char_eq_iff, Char.reduceToNat, or_assoc]

theorem isDigitOrPoint_iff {a : Char} : isDigitOrPoint a = true ↔
    48 ≤ a.toNat ∧ a.toNat ≤ 57 ∨ a.toNat = 46 := by
  simp only [isDigitOrPoint, Bool.or_eq_true, isDigit_iff, decide_eq_true_eq, char_eq_iff,
    Char.reduceToNat]

theorem isDigitOrPoint_of_digit {a : Char} (h : a.isDigit = true) : isDigitOrPoint a = true :=
  isDigitOrPoint_iff.2 (.inl (isDigit_iff.1 h))

theorem isSpace_iff {a : Char} : isSpace a = true ↔ a.toNat = 32 ∨ a.toNat = 9 ∨ a.toNat = 10 ∨
    a.toNat = 13 ∨ a.toNat = 12 := by
  simp only [isSpace, Bool.or_eq_true, decide_eq_true_eq, char_eq_iff, Char.reduceToNat, or_assoc]

end VoxelEdit.Text
