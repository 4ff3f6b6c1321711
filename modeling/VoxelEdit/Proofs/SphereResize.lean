import VoxelEdit.Proofs.CanonicalRegion
import VoxelEdit.Proofs.ProperShapes

/-!
# How spheres are resized

A sphere grows or shrinks by half of the magnitudes of the changes, if they are the same on all
axes. The half is cut to a number of 32 bits with a sign.

* `magnitude`, `Uniform`: the sum along an axis, and that it is the same on all of them.
* `keptHalf`: what the cut leaves. It is the half as long as the sum has no more than 32 bits
  (`keptHalf_eq_half_iff`).
* `resize_eq`: what growing and shrinking do with any changes.
* `Follows`: a sphere is resized by the half itself. **All reached spheres are, exactly if the sum
  has no more than 32 bits**, and **a sphere that is reached by such changes has a radius of at least
  one half, which growing does not lower and shrinking does not raise** (`resize_law`).
-/

namespace VoxelEdit

open Number

namespace Sphere

/-! ## Even changes -/

/-- The sum of the magnitudes of changes along an axis. -/
def magnitude (axis : Pos → Int) (ds : List Pos) : Nat := (ds.map fun d => (axis d).natAbs).sum

/-- Changes that have the same magnitude along all axes. -/
structure Uniform (ds : List Pos) : Prop where
  y : magnitude Pos.y ds = magnitude Pos.x ds
  z : magnitude Pos.z ds = magnitude Pos.x ds

/-- Half of the magnitude of changes, cut to 32 bits with a sign. -/
def keptHalf (ds : List Pos) : Int := ((magnitude Pos.x ds / 2 : Nat) : Int).bmod (maxWord32 + 1)

variable {ds : List Pos}

theorem foldl_magnitude (axis : Pos → Int) (ds : List Pos) :
    ds.foldl (fun n d => n + (axis d).natAbs) 0 = magnitude axis ds := by
  rw [magnitude, List.sum_eq_foldl, List.foldl_map]

theorem Uniform.evenChange? (h : Uniform ds) : evenChange? ds = some (keptHalf ds) := by
  unfold Sphere.evenChange?
  simp only [foldl_magnitude, h.y, h.z]
  rfl

theorem evenChange?_of_not_uniform (h : ¬ Uniform ds) : evenChange? ds = none := by
  unfold Sphere.evenChange?
  simp only [foldl_magnitude]
  refine if_neg fun heven => h ?_
  rw [Bool.and_eq_true, decide_eq_true_eq, decide_eq_true_eq] at heven
  exact ⟨heven.1.symm, (heven.1.trans heven.2).symm⟩

theorem keptHalf_range (ds : List Pos) : minInt32 ≤ keptHalf ds ∧ keptHalf ds ≤ maxInt32 := by
  have hlow : -(((maxWord32 + 1 : Nat) : Int) / 2) ≤ keptHalf ds := Int.le_bmod (by decide)
  have hhigh : keptHalf ds < (((maxWord32 + 1 : Nat) : Int) + 1) / 2 := Int.bmod_lt (by decide)
  simp only [maxWord32] at hlow hhigh
  simp only [minInt32, maxInt32]
  omega

/-- The cut leaves the half of a sum of 32 bits, and of no larger one. -/
theorem keptHalf_eq_half_iff (ds : List Pos) :
    keptHalf ds = (magnitude Pos.x ds / 2 : Nat) ↔ magnitude Pos.x ds ≤ maxWord32 := by
  constructor
  · intro h
    have hrange := keptHalf_range ds
    simp only [maxInt32] at hrange
    simp only [maxWord32]
    omega
  · intro h
    simp only [maxWord32] at h
    exact Int.bmod_eq_of_le (by omega) (by simp only [maxWord32]; omega)

/-! ## Exact radii -/

theorem atLeastHalf_eq (r : ℝ) : atLeastHalf r = max (1 / 2) r := by
  unfold atLeastHalf
  split
  · rename_i h
    have hlt : r < 1 / 2 := of_decide_eq_true h
    exact (max_eq_left hlt.le).symm
  · rename_i h
    have hle : ¬ r < 1 / 2 := fun hlt => h (decide_eq_true hlt)
    exact (max_eq_right (not_lt.1 hle)).symm

/-- A sphere fits if its box lies in the world. -/
theorem fits_iff {center : Pos} {radius : ℝ} :
    fits center radius = true ↔ (around center radius).InWorld := by
  refine ⟨around_inWorld, fun h => ?_⟩
  obtain ⟨⟨⟨hx, -⟩, ⟨hy, -⟩, ⟨hz, -⟩⟩, ⟨-, hx'⟩, ⟨-, hy'⟩, ⟨-, hz'⟩⟩ := h
  simp only [around, Box.span, Pos.inf, Pos.sup, Pos.sub_x, Pos.sub_y, Pos.sub_z, Pos.add_x,
    Pos.add_y, Pos.add_z, Pos.splat_x, Pos.splat_y, Pos.splat_z, le_inf_iff, sup_le_iff]
    at hx hy hz hx' hy' hz'
  unfold fits inWorld
  simp only [Bool.and_eq_true, List.all_cons, List.all_nil, Bool.and_true, decide_eq_true_eq]
  simp only [minInt32, maxInt32] at hx hy hz hx' hy' hz' ⊢
  exact ⟨rfl, by omega, by omega, by omega, by omega⟩

/-! ## Growing and shrinking -/

section

variable (s : Sphere ℝ)

theorem resize_of_not_uniform (h : ¬ Uniform ds) : s.grow? ds = none ∧ s.shrink? ds = none := by
  unfold grow? shrink?
  rw [evenChange?_of_not_uniform h]
  exact ⟨rfl, rfl⟩

/-- **What growing and shrinking do**: the radius goes up or down by the kept half. -/
theorem resize_eq (h : Uniform ds) :
    s.shrink? ds = some (make s.center (max (1 / 2) (s.radius - keptHalf ds))) ∧
      ((around s.center (s.radius + keptHalf ds)).InWorld →
        s.grow? ds = some (make s.center (s.radius + keptHalf ds))) ∧
      (¬ (around s.center (s.radius + keptHalf ds)).InWorld → s.grow? ds = none) := by
  have hgrow : s.grow? ds = if fits s.center (s.radius + keptHalf ds) then
      some (make s.center (s.radius + keptHalf ds)) else none := by
    unfold grow?
    rw [h.evenChange?]
    rfl
  have hshrink : s.shrink? ds =
      some (make s.center (atLeastHalf (s.radius + (-keptHalf ds : Int)))) := by
    unfold shrink?
    rw [h.evenChange?]
    rfl
  refine ⟨?_, fun hworld => ?_, fun hworld => ?_⟩
  · rw [hshrink, atLeastHalf_eq, Int.cast_neg, sub_eq_add_neg]
  · rw [hgrow, if_pos (fits_iff.2 hworld)]
  · rw [hgrow, if_neg fun hfits => hworld (fits_iff.1 hfits)]

/-- A sphere is resized by half of the magnitude of the changes: refused if that differs between
the axes, shrunk down to one half, and grown if the larger sphere stays in the world. -/
structure Follows (ds : List Pos) : Prop where
  uneven : ¬ Uniform ds → s.grow? ds = none ∧ s.shrink? ds = none
  shrinks : Uniform ds → s.shrink? ds =
    some (make s.center (max (1 / 2) (s.radius - (magnitude Pos.x ds / 2 : Nat))))
  grows : Uniform ds → (around s.center (s.radius + (magnitude Pos.x ds / 2 : Nat))).InWorld →
    s.grow? ds = some (make s.center (s.radius + (magnitude Pos.x ds / 2 : Nat)))
  stays : Uniform ds → ¬ (around s.center (s.radius + (magnitude Pos.x ds / 2 : Nat))).InWorld →
    s.grow? ds = none

end

/-! ## Reached spheres -/

/-- The spheres that are made from a position and changed by any operations, with a condition on
the changes that resize them. A new main position makes a sphere anew. -/
inductive Reached (Q : List Pos → Prop) : Sphere ℝ → Prop
  | ofPoint (p : Pos) : Reached Q (ofPoint p)
  | setVice {s t : Sphere ℝ} (p : Pos) : Reached Q s → s.setVice? p = some t → Reached Q t
  | grow {s t : Sphere ℝ} {ds : List Pos} : Q ds → Reached Q s → s.grow? ds = some t → Reached Q t
  | shrink {s t : Sphere ℝ} {ds : List Pos} : Q ds → Reached Q s → s.shrink? ds = some t →
      Reached Q t
  | shift {s : Sphere ℝ} (d : Pos) : Reached Q s → Reached Q (s.shift d)

section

variable {s t : Sphere ℝ}

/-- A sphere follows changes whose sum has no more than 32 bits. -/
theorem follows (s : Sphere ℝ) (hsmall : Uniform ds → magnitude Pos.x ds ≤ maxWord32) :
    s.Follows ds := by
  have hhalf (h : Uniform ds) : ((keptHalf ds : Int) : ℝ) = (magnitude Pos.x ds / 2 : Nat) := by
    rw [(keptHalf_eq_half_iff ds).2 (hsmall h), Int.cast_natCast]
  refine ⟨s.resize_of_not_uniform, fun h => ?_, fun h hworld => ?_, fun h hworld => ?_⟩
  · rw [(s.resize_eq h).1, hhalf h]
  · rw [← hhalf h] at hworld ⊢
    exact (s.resize_eq h).2.1 hworld
  · rw [← hhalf h] at hworld
    exact (s.resize_eq h).2.2 hworld

/-- A sphere that is shrunk has its radius lowered by the kept half, down to one half. -/
theorem shrink?_eq_some (h : s.shrink? ds = some t) :
    t = make s.center (max (1 / 2) (s.radius - keptHalf ds)) := by
  have huniform : Uniform ds := by
    by_contra hno
    rw [(s.resize_of_not_uniform hno).2] at h
    exact nomatch h
  rw [(s.resize_eq huniform).1] at h
  exact (Option.some.inj h).symm

theorem setVice?_radius {p : Pos} (h : s.setVice? p = some t) : 1 / 2 ≤ t.radius := by
  rw [(setVice?_eq_some h).2.2]
  exact le_add_of_nonneg_left (Real.sqrt_nonneg _)

theorem grow?_radius (hds : SmallChanges ds) (h : s.grow? ds = some t) : s.radius ≤ t.radius := by
  obtain ⟨d, hd, h⟩ := Option.bind_eq_some_iff.1 h
  have h0 : (0 : ℝ) ≤ d := Int.cast_nonneg (evenChange?_range hds hd).1
  dsimp only at h
  split at h
  · rw [← Option.some.inj h]
    exact le_add_of_nonneg_right h0
  · exact nomatch h

theorem shrink?_radius (h : s.shrink? ds = some t) : 1 / 2 ≤ t.radius := by
  rw [shrink?_eq_some h]
  exact le_max_left _ _

theorem shrink?_radius_le (hs : 1 / 2 ≤ s.radius) (hds : SmallChanges ds)
    (h : s.shrink? ds = some t) : t.radius ≤ s.radius := by
  have hhalf := (keptHalf_eq_half_iff ds).2 (hds Pos.x List.mem_cons_self)
  have h0 : (0 : ℝ) ≤ keptHalf ds := Int.cast_nonneg (by omega)
  rw [shrink?_eq_some h]
  exact max_le hs (by linarith)

/-- **No small changes bring the radius below one half.** -/
theorem Reached.half_le (hs : s.Reached SmallChanges) : 1 / 2 ≤ s.radius := by
  induction hs with
  | ofPoint p => exact le_rfl
  | setVice p _ h _ => exact setVice?_radius h
  | grow hds _ h ih => exact ih.trans (grow?_radius hds h)
  | shrink hds _ h _ => exact shrink?_radius h
  | shift d _ ih => exact ih

end

/-! ## Changes that are too large -/

/-- As many changes by the smallest coordinate. -/
def lowest (n : Nat) : List Pos := List.replicate n (.splat minInt32)

theorem uniform_lowest (n : Nat) : Uniform (lowest n) := by
  unfold lowest
  refine ⟨?_, ?_⟩ <;> rw [magnitude, magnitude, List.map_replicate, List.map_replicate] <;> rfl

/-- Shrunk by a magnitude of `2 ^ 32`, a sphere grows by `2 ^ 31`. -/
theorem swollen : (ofPoint .zero : Sphere ℝ).shrink? (lowest 2) =
    some (make .zero (2147483648 + 1 / 2)) := by
  have hkept : keptHalf (lowest 2) = -2147483648 := by decide
  rw [(resize_eq _ (uniform_lowest 2)).1, hkept]
  have hradius : max (1 / 2) ((ofPoint .zero : Sphere ℝ).radius - ((-2147483648 : Int) : ℝ)) =
      2147483648 + 1 / 2 := by
    show max (1 / 2) ((1 / 2 : ℝ) - ((-2147483648 : Int) : ℝ)) = _
    norm_num
  rw [hradius]
  rfl

/-- The swollen sphere does not shrink down to one half by changes of a larger magnitude: what is
kept of the half is smaller than its radius. -/
theorem small_of_follows (hall : (make .zero (2147483648 + 1 / 2) : Sphere ℝ).Follows ds)
    (h : Uniform ds) : magnitude Pos.x ds ≤ maxWord32 := by
  by_contra hlarge
  have hshrink := (hall.shrinks h).symm.trans (resize_eq _ h).1
  have hradius := congrArg Sphere.radius (Option.some.inj hshrink)
  have hkept : ((keptHalf ds : Int) : ℝ) ≤ 2147483647 := by
    exact_mod_cast (keptHalf_range ds).2
  have hhalf : (2147483648 : ℝ) ≤ (magnitude Pos.x ds / 2 : Nat) := by
    simp only [maxWord32] at hlarge
    exact_mod_cast (by omega : 2147483648 ≤ magnitude Pos.x ds / 2)
  have hleft : max (1 / 2) ((2147483648 + 1 / 2 : ℝ) - (magnitude Pos.x ds / 2 : Nat)) = 1 / 2 :=
    max_eq_left (by linarith)
  have hright := le_max_right (1 / 2) ((2147483648 + 1 / 2 : ℝ) - (keptHalf ds : Int))
  have heq : max (1 / 2) ((2147483648 + 1 / 2 : ℝ) - (magnitude Pos.x ds / 2 : Nat)) =
      max (1 / 2) ((2147483648 + 1 / 2 : ℝ) - (keptHalf ds : Int)) := hradius
  linarith

/-! ## The law -/

/-- **All reached spheres are resized by half of the magnitude of changes, exactly if that has no
more than 32 bits.** Spheres that only such changes lead to have a radius of at least one half;
growing does not lower it and shrinking does not raise it. -/
theorem resize_law (ds : List Pos) :
    ((∀ s : Sphere ℝ, s.Reached (fun _ => True) → s.Follows ds) ↔
      (Uniform ds → magnitude Pos.x ds ≤ maxWord32)) ∧
    ∀ s : Sphere ℝ, s.Reached SmallChanges → 1 / 2 ≤ s.radius ∧ (SmallChanges ds → ∀ t,
      (s.grow? ds = some t → s.radius ≤ t.radius) ∧
        (s.shrink? ds = some t → t.radius ≤ s.radius)) := by
  refine ⟨⟨fun hall => ?_, fun hsmall s _ => follows s hsmall⟩, fun s hs => ?_⟩
  · exact small_of_follows (hall _ (.shrink trivial (.ofPoint .zero) swollen))
  · have hhalf := hs.half_le
    exact ⟨hhalf, fun hds t => ⟨grow?_radius hds, shrink?_radius_le hhalf hds⟩⟩

/-- Changes by `2 ^ 33 - 6` along each axis. -/
def overlong : List Pos := lowest 3 ++ [.splat 2147483642]

/-- A sphere of one block that is shrunk by changes of more than 32 bits has a larger radius than
before. -/
theorem shrink_wraps_around :
    (ofPoint .zero : Sphere ℝ).shrink? overlong = some (make .zero (7 / 2)) ∧
      (ofPoint .zero : Sphere ℝ).radius = 1 / 2 ∧ ¬ (ofPoint .zero : Sphere ℝ).Follows overlong := by
  have hkept : keptHalf overlong = -3 := by decide
  have huniform : Uniform overlong := ⟨by decide, by decide⟩
  have hradius : max (1 / 2) ((ofPoint .zero : Sphere ℝ).radius - ((-3 : Int) : ℝ)) = 7 / 2 := by
    show max (1 / 2) ((1 / 2 : ℝ) - ((-3 : Int) : ℝ)) = 7 / 2
    norm_num
  have hshrink : (ofPoint .zero : Sphere ℝ).shrink? overlong = some (make .zero (7 / 2)) := by
    rw [(resize_eq _ huniform).1, hkept, hradius]
    rfl
  refine ⟨hshrink, rfl, fun hfollows => ?_⟩
  have heq := congrArg Sphere.radius (Option.some.inj (hshrink.symm.trans (hfollows.shrinks huniform)))
  have hhalf : (0 : ℝ) ≤ (magnitude Pos.x overlong / 2 : Nat) := Nat.cast_nonneg _
  have hsmall : max (1 / 2) ((1 / 2 : ℝ) - (magnitude Pos.x overlong / 2 : Nat)) = 1 / 2 :=
    max_eq_left (by linarith)
  have hlarge : (7 / 2 : ℝ) = max (1 / 2) ((1 / 2 : ℝ) - (magnitude Pos.x overlong / 2 : Nat)) := heq
  linarith

end Sphere

end VoxelEdit
