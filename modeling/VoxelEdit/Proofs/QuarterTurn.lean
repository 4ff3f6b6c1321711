import Mathlib.Logic.Equiv.Basic
import VoxelEdit.Grid.Axis
import VoxelEdit.Proofs.BoxIndex

/-!
# Quarter turns and mirrors of positions

Inside a buffer a quarter turn and a mirror are maps with an inverse (`turnBack_turn`,
`turn_turnBack`, `mirror_mirror`), and away from a fixed position they act on the difference
alone (`turn_add`, `mirror_add`), whatever the size.

* `turnBack_eq`: the way back is three more turns, each in the buffer that the turn before it
  leaves.
* `SignedPermutation`: what turns and mirrors do to directions, and what compositions of them do.
-/

namespace VoxelEdit

namespace Pos

variable (p d size : Pos) (axis : Axis)

theorem turnSize_turnSize : (size.turnSize axis).turnSize axis = size := by
  cases axis <;> rfl

/-- The three turns that lead back, each in the buffer that the turn before it leaves. -/
theorem turnBack_eq : p.turnBack size axis =
    ((p.turn (size.turnSize axis) axis).turn size axis).turn (size.turnSize axis) axis := by
  simp only [turnBack, Nat.repeat, turnFrame, turnSize_turnSize]

theorem turnBack_turn : (p.turn size axis).turnBack size axis = p := by
  rw [turnBack_eq]
  cases axis <;> ext <;> simp [turn, turnSize, Axis.plane, set, get]

theorem turn_turnBack : (p.turnBack size axis).turn size axis = p := by
  rw [turnBack_eq]
  cases axis <;> ext <;> simp [turn, turnSize, Axis.plane, set, get]

theorem mirror_mirror : (p.mirror size axis).mirror size axis = p := by
  cases axis <;> ext <;> simp [mirror, set, get]

theorem turn_add : (p + d).turn size axis = p.turn size axis + d.turnVector axis := by
  cases axis <;> ext <;> simp [turn, turnVector, Axis.plane, set, get] <;> omega

theorem mirror_add : (p + d).mirror size axis = p.mirror size axis + d.mirrorVector axis := by
  cases axis <;> ext <;> simp [mirror, mirrorVector, set, get] <;> omega

/-- In a buffer of a size whose first cell is the origin. -/
def Inside (p size : Pos) : Prop :=
  (0 ≤ p.x ∧ p.x < size.x) ∧ (0 ≤ p.y ∧ p.y < size.y) ∧ 0 ≤ p.z ∧ p.z < size.z

theorem inside_turn : (p.turn size axis).Inside (size.turnSize axis) ↔ p.Inside size := by
  cases axis <;> simp only [Inside, turn, turnSize, Axis.plane, set, get] <;> omega

theorem inside_mirror : (p.mirror size axis).Inside size ↔ p.Inside size := by
  cases axis <;> simp only [Inside, mirror, set, get] <;> omega

/-- The number of cells of a buffer of a size. -/
def cellCount : Int := size.x * size.y * size.z

theorem cellCount_turnSize : (size.turnSize axis).cellCount = size.cellCount := by
  cases axis <;> simp only [cellCount, turnSize, Axis.plane, set, get] <;> ring

end Pos

/-! ## Directions -/

/-- A map of directions that sends each coordinate to a coordinate, up to a sign. -/
def SignedPermutation (M : Pos → Pos) : Prop :=
  ∃ (σ : Equiv.Perm Axis) (s : Axis → Int),
    (∀ a, s a = 1 ∨ s a = -1) ∧ ∀ v a, (M v).get a = s a * v.get (σ a)

namespace SignedPermutation

variable {M N : Pos → Pos}

theorem pos_ext {p q : Pos} (h : ∀ a : Axis, p.get a = q.get a) : p = q :=
  Pos.ext (h .x) (h .y) (h .z)

theorem id : SignedPermutation fun v => v :=
  ⟨Equiv.refl Axis, fun _ => 1, fun _ => .inl rfl, fun _ _ => (one_mul _).symm⟩

theorem comp (hN : SignedPermutation N) (hM : SignedPermutation M) :
    SignedPermutation fun v => N (M v) := by
  obtain ⟨σ, s, hs, hM⟩ := hM
  obtain ⟨τ, t, ht, hN⟩ := hN
  refine ⟨τ.trans σ, fun a => t a * s (τ a), ?_, ?_⟩
  · intro a
    rcases ht a with h | h <;> rcases hs (τ a) with h' | h' <;> simp [h, h']
  · intro v a
    rw [hN, hM, mul_assoc]
    rfl

/-- Such a map loses and merges no direction. -/
theorem bijective (hM : SignedPermutation M) : Function.Bijective M := by
  obtain ⟨σ, s, hs, hM⟩ := hM
  have hss : ∀ a, s a * s a = 1 := by
    intro a
    rcases hs a with h | h <;> simp [h]
  constructor
  · intro v w h
    apply pos_ext
    intro a
    have h1 := hM v (σ.symm a)
    have h2 := hM w (σ.symm a)
    rw [h, h2, Equiv.apply_symm_apply] at h1
    have h3 := congrArg (s (σ.symm a) * ·) h1
    simp only [← mul_assoc, hss, one_mul] at h3
    exact h3.symm
  · intro w
    -- the direction whose coordinates are those of `w`, put back in their places
    set back : Axis → Int := fun a => s (σ.symm a) * w.get (σ.symm a) with hback
    refine ⟨⟨back .x, back .y, back .z⟩, pos_ext fun a => ?_⟩
    have hget : ∀ b : Axis, (⟨back .x, back .y, back .z⟩ : Pos).get b = back b := by
      intro b
      cases b <;> rfl
    rw [hM, hget, hback]
    simp only [Equiv.symm_apply_apply]
    rw [← mul_assoc, hss, one_mul]

theorem turnVector (axis : Axis) : SignedPermutation fun v => v.turnVector axis := by
  refine ⟨Equiv.swap axis.plane.1 axis.plane.2, fun a => if a = axis.plane.2 then -1 else 1, ?_, ?_⟩
  · intro a
    by_cases h : a = axis.plane.2
    · exact .inr (if_pos h)
    · exact .inl (if_neg h)
  · intro v a
    cases axis <;> cases a <;>
      simp [Pos.turnVector, Axis.plane, Pos.set, Pos.get, Equiv.swap_apply_def]

theorem mirrorVector (axis : Axis) : SignedPermutation fun v => v.mirrorVector axis := by
  refine ⟨Equiv.refl Axis, fun a => if a = axis then -1 else 1, ?_, ?_⟩
  · intro a
    by_cases h : a = axis
    · exact .inr (if_pos h)
    · exact .inl (if_neg h)
  · intro v a
    cases axis <;> cases a <;> simp [Pos.mirrorVector, Pos.set, Pos.get]

end SignedPermutation

end VoxelEdit
