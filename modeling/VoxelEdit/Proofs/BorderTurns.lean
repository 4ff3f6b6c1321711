import VoxelEdit.Proofs.CrossProduct
import VoxelEdit.Proofs.Separation

/-!
# Turning a border onto points

A half-space that separates a position from points is turned about the position: first until its
border meets a point (`Separates.to_point`), then about that point, too, until it meets one more
off their line (`Separates.to_line`), then about both until it meets one off their plane
(`Separates.to_plane`). Points that are not on a line, or not in a plane, have one to meet
(`exists_off_line`, `exists_off_plane`).
-/

namespace VoxelEdit

namespace HalfSpace

variable {points : List Pos} {f : HalfSpace} {a b o p q r u : Pos}

/-! ## Turning a half-space that separates -/

theorem Separates.ne (hf : f.Separates points p) (ha : a ∈ points) : a - p ≠ .zero := by
  intro h
  have h1 := hf.holds a ha
  have h2 := hf.past
  rw [Pos.sub_eq_zero.1 h] at h1
  omega

/-- Turned to a border through a point. -/
theorem Separates.to_point (hf : f.Separates points p) (ho : o ∈ points) :
    ∃ f' : HalfSpace, f'.Separates points p ∧ ∃ a ∈ points, f'.excess a = 0 := by
  have hp : (along (o - p) p).excess p = 0 := excess_along_self _ _
  have hne : (along (o - p) p).excess o ≠ 0 := by
    rw [excess_along]
    exact (Pos.dot_self_pos (hf.ne ho)).ne'
  obtain ⟨f', hf', -, a, ha, hfa, -⟩ := hf.turn hp ⟨o, ho, hne⟩
  exact ⟨f', hf', a, ha, hfa⟩

/-- Turned about `p` and a point on its border, to one more that is not on their line. -/
theorem Separates.to_line (hf : f.Separates points p) (hfa : f.excess a = 0)
    (hoff : ∃ s ∈ points, (a - p).cross (s - p) ≠ .zero) :
    ∃ f' : HalfSpace, f'.Separates points p ∧ f'.excess a = 0 ∧
      ∃ b ∈ points, f'.excess b = 0 ∧ (a - p).cross (b - p) ≠ .zero := by
  obtain ⟨s, hs, hne⟩ := hoff
  set u := a - p with hu
  -- towards the plane through `p` and `a` that is perpendicular to theirs with `s`
  set m := u.cross (u.cross (s - p)) with hm
  have hmu : m.dot u = 0 := by
    simp only [hm, Pos.dot, Pos.cross]
    ring
  have hms : (along m p).excess s ≠ 0 := by
    have hpos := Pos.dot_self_pos hne
    have hsum : m.dot (s - p) + (u.cross (s - p)).dot (u.cross (s - p)) = 0 := by
      simp only [hm, Pos.dot, Pos.cross]
      ring
    rw [excess_along]
    omega
  obtain ⟨f', hf', hkeep, b, hb, hfb, hmb⟩ := hf.turn (excess_along_self m p) ⟨s, hs, hms⟩
  refine ⟨f', hf', hkeep a hfa (by rw [excess_along]; exact hmu), b, hb, hfb, ?_⟩
  intro hzero
  -- on the line of `p` and `a` the plane has no excess
  have h := Pos.dot_self_mul_of_parallel hzero m
  rw [hmu, mul_zero] at h
  rw [excess_along] at hmb
  rcases mul_eq_zero.1 h with h0 | h0
  · have hu0 : u = .zero := Pos.eq_zero_of_dot_self h0
    apply hne
    rw [hu0]
    ext <;> simp [Pos.cross]
  · exact hmb h0

/-- Turned about `p` and two points on its border, to one more that is not in their plane. -/
theorem Separates.to_plane (hf : f.Separates points p) (hfa : f.excess a = 0)
    (hfb : f.excess b = 0)
    (hoff : ∃ s ∈ points, ((a - p).cross (b - p)).dot (s - p) ≠ 0) :
    ∃ f' : HalfSpace, f'.Separates points p ∧ f'.excess a = 0 ∧ f'.excess b = 0 ∧
      ∃ c ∈ points, f'.excess c = 0 ∧ ((a - p).cross (b - p)).dot (c - p) ≠ 0 := by
  obtain ⟨s, hs, hne⟩ := hoff
  set m := (a - p).cross (b - p) with hm
  have hma : m.dot (a - p) = 0 := by
    simp only [hm, Pos.dot, Pos.cross]
    ring
  have hmb : m.dot (b - p) = 0 := by
    simp only [hm, Pos.dot, Pos.cross]
    ring
  obtain ⟨f', hf', hkeep, c, hc, hfc, hmc⟩ := hf.turn (excess_along_self m p)
    ⟨s, hs, by rw [excess_along]; exact hne⟩
  rw [excess_along] at hmc
  exact ⟨f', hf', hkeep a hfa (by rw [excess_along]; exact hma),
    hkeep b hfb (by rw [excess_along]; exact hmb), c, hc, hfc, hmc⟩

/-- Between points on its border the normal is perpendicular. -/
theorem dot_sub_eq_excess (f : HalfSpace) (ha : f.excess a = 0) (q : Pos) :
    f.normal.dot (q - a) = f.excess q := by
  unfold excess at ha ⊢
  rw [Pos.dot_sub]
  omega

end HalfSpace

/-! ## Points off a line and off a plane -/

section Rank

variable {points : List Pos} {o far q r d n : Pos}

/-- If three points are not on a line, one of them is off any given line. -/
theorem exists_off_line (ho : o ∈ points) (hfar : far ∈ points) (hq : q ∈ points)
    (hrank : (far - o).cross (q - o) ≠ .zero) (hd : d ≠ .zero) (c : Pos) :
    ∃ s ∈ points, d.cross (s - c) ≠ .zero := by
  by_contra hall
  push Not at hall
  have hsub : ∀ s ∈ points, d.cross (s - o) = .zero := by
    intro s hs
    have h1 := hall s hs
    have h2 := hall o ho
    rw [Pos.ext_iff] at h1 h2 ⊢
    simp only [Pos.cross, Pos.sub_x, Pos.sub_y, Pos.sub_z, Pos.zero_x, Pos.zero_y,
      Pos.zero_z] at h1 h2 ⊢
    refine ⟨?_, ?_, ?_⟩
    · linear_combination h1.1 - h2.1
    · linear_combination h1.2.1 - h2.2.1
    · linear_combination h1.2.2 - h2.2.2
  exact hrank (Pos.cross_eq_zero_of_parallel hd (hsub far hfar) (hsub q hq))

/-- If four points are not in a plane, one of them is off any given plane. -/
theorem exists_off_plane (ho : o ∈ points) (hfar : far ∈ points) (hq : q ∈ points)
    (hr : r ∈ points) (hrank : ((far - o).cross (q - o)).dot (r - o) ≠ 0) (hn : n ≠ .zero)
    (c : Pos) : ∃ s ∈ points, n.dot (s - c) ≠ 0 := by
  by_contra hall
  push Not at hall
  have hsub : ∀ s ∈ points, n.dot (s - o) = 0 := by
    intro s hs
    have h1 := hall s hs
    have h2 := hall o ho
    rw [Pos.dot_sub] at h1 h2 ⊢
    omega
  exact hrank (Pos.triple_eq_zero hn (hsub far hfar) (hsub q hq) (hsub r hr))

end Rank

end VoxelEdit
