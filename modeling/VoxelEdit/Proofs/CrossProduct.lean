import Mathlib.Tactic.LinearCombination
import Mathlib.Tactic.Linarith
import VoxelEdit.Proofs.BoxIndex
import VoxelEdit.Region.Hull

/-!
# Inner and vector products

What the hull needs to know of products of whole-number vectors: when vectors are parallel, lie in
one plane, or are perpendicular to the same ones.
-/

namespace VoxelEdit.Pos

variable {d e f n u v x y z : Pos}

theorem sub_eq_zero : u - v = .zero ↔ u = v := by
  simp only [Pos.ext_iff, sub_x, sub_y, sub_z, zero_x, zero_y, zero_z]
  omega

theorem dot_sub (n u v : Pos) : n.dot (u - v) = n.dot u - n.dot v := by
  simp only [dot, sub_x, sub_y, sub_z]
  ring

theorem dot_self_pos (h : u ≠ .zero) : 0 < u.dot u := by
  unfold dot
  by_contra hle
  have hx : u.x = 0 := by nlinarith [mul_self_nonneg u.x, mul_self_nonneg u.y, mul_self_nonneg u.z]
  have hy : u.y = 0 := by nlinarith [mul_self_nonneg u.x, mul_self_nonneg u.y, mul_self_nonneg u.z]
  have hz : u.z = 0 := by nlinarith [mul_self_nonneg u.x, mul_self_nonneg u.y, mul_self_nonneg u.z]
  exact h (Pos.ext hx hy hz)

theorem eq_zero_of_dot_self (h : u.dot u = 0) : u = .zero := by
  by_contra hu
  have := dot_self_pos hu
  omega

theorem cross_dot_self (u v : Pos) : (u.cross v).dot u = 0 := by
  simp only [dot, cross]
  ring

/-- The vector product of a vector with a parallel one is zero, so the vector is a multiple. -/
theorem dot_self_mul_of_parallel (h : d.cross x = .zero) (f : Pos) :
    d.dot d * f.dot x = d.dot x * f.dot d := by
  have hx := congrArg Pos.x h
  have hy := congrArg Pos.y h
  have hz := congrArg Pos.z h
  simp only [cross, zero_x, zero_y, zero_z] at hx hy hz
  simp only [dot]
  linear_combination (f.z * d.y - f.y * d.z) * hx + (f.x * d.z - f.z * d.x) * hy +
    (f.y * d.x - f.x * d.y) * hz

theorem dot_eq_zero_of_parallel (hd : d ≠ .zero) (h : d.cross x = .zero) (hf : f.dot d = 0) :
    f.dot x = 0 := by
  have hpos := dot_self_pos hd
  have hmul := dot_self_mul_of_parallel h f
  rw [hf, mul_zero, mul_eq_zero] at hmul
  omega

/-- Two vectors parallel to a third are parallel to each other. -/
theorem cross_eq_zero_of_parallel (hu : u ≠ .zero) (hx : u.cross x = .zero)
    (hy : u.cross y = .zero) : x.cross y = .zero := by
  have hpos := dot_self_pos hu
  -- the product is perpendicular to everything
  have hperp : ∀ f : Pos, f.dot (x.cross y) = 0 := by
    intro f
    have h1 := dot_self_mul_of_parallel hx (y.cross f)
    have h2 := dot_self_mul_of_parallel hy (f.cross u)
    have h4 : u.dot u * (u.dot u * f.dot (x.cross y)) = 0 := by
      simp only [dot, cross] at h1 h2 ⊢
      linear_combination (u.x * u.x + u.y * u.y + u.z * u.z) * h1 +
        (u.x * x.x + u.y * x.y + u.z * x.z) * h2
    rcases mul_eq_zero.1 h4 with h | h
    · omega
    · rcases mul_eq_zero.1 h with h | h
      · omega
      · exact h
  exact eq_zero_of_dot_self (hperp _)

/-- Three vectors perpendicular to a fourth lie in a plane. -/
theorem triple_eq_zero (hn : n ≠ .zero) (hx : n.dot x = 0) (hy : n.dot y = 0) (hz : n.dot z = 0) :
    (x.cross y).dot z = 0 := by
  have h : n.dot n * (x.cross y).dot z = 0 := by
    simp only [dot, cross] at hx hy hz ⊢
    linear_combination (n.x * (y.y * z.z - y.z * z.y) + n.y * (y.z * z.x - y.x * z.z) +
      n.z * (y.x * z.y - y.y * z.x)) * hx + (n.x * (z.y * x.z - z.z * x.y) +
      n.y * (z.z * x.x - z.x * x.z) + n.z * (z.x * x.y - z.y * x.x)) * hy +
      (n.x * (x.y * y.z - x.z * y.y) + n.y * (x.z * y.x - x.x * y.z) +
      n.z * (x.x * y.y - x.y * y.x)) * hz
  rcases mul_eq_zero.1 h with h | h
  · have := dot_self_pos hn
    omega
  · exact h

/-- What is perpendicular to two vectors is proportional to their product. -/
theorem dot_mul_dot_of_perp (hx : f.dot x = 0) (hy : f.dot y = 0) (u v : Pos) :
    (x.cross y).dot u * f.dot v = (x.cross y).dot v * f.dot u := by
  simp only [dot, cross] at hx hy ⊢
  linear_combination (y.x * (u.y * v.z - u.z * v.y) + y.y * (u.z * v.x - u.x * v.z) +
    y.z * (u.x * v.y - u.y * v.x)) * hx - (x.x * (u.y * v.z - u.z * v.y) +
    x.y * (u.z * v.x - u.x * v.z) + x.z * (u.x * v.y - u.y * v.x)) * hy

/-- In the plane perpendicular to `n`, what is perpendicular to `e` is proportional to
`e.cross n`. -/
theorem dot_mul_of_plane (he : n.dot e = 0) (hv : n.dot v = 0) (hf : f.dot e = 0) :
    e.dot e * n.dot n * f.dot v = (e.cross n).dot v * (e.cross n).dot f := by
  have gram : (e.cross n).dot v * (e.cross n).dot f =
      e.dot e * (n.dot n * f.dot v - n.dot f * n.dot v) -
        n.dot e * (n.dot e * f.dot v - n.dot f * v.dot e) +
        f.dot e * (n.dot e * n.dot v - n.dot n * v.dot e) := by
    simp only [dot, cross]
    ring
  rw [gram, he, hv, hf]
  ring

/-- On a line that two planes share. -/
theorem cross_eq_zero_of_planes (hd : d ≠ .zero) (hf : f ≠ .zero) (hfd : f.dot d = 0)
    (h1 : f.dot v = 0) (h2 : (d.cross f).dot v = 0) : d.cross v = .zero := by
  by_contra hne
  have hdd := dot_self_pos hd
  have hff := dot_self_pos hf
  -- it would be perpendicular to three vectors that lie in no plane
  have hn1 : (d.cross v).dot d = 0 := cross_dot_self d v
  have hn2 : (d.cross v).dot f = 0 := by
    simp only [dot, cross] at h2 ⊢
    linear_combination -h2
  have hn3 : (d.cross v).dot (d.cross f) = 0 := by
    simp only [dot, cross] at h1 hfd ⊢
    linear_combination (d.x * d.x + d.y * d.y + d.z * d.z) * h1 -
      (d.x * v.x + d.y * v.y + d.z * v.z) * hfd
  have h := triple_eq_zero hne hn1 hn2 hn3
  have hlagrange : (d.cross f).dot (d.cross f) = d.dot d * f.dot f - f.dot d * f.dot d := by
    simp only [dot, cross]
    ring
  rw [hlagrange, hfd] at h
  have := mul_pos hdd hff
  omega

end VoxelEdit.Pos
