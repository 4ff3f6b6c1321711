import Mathlib.Algebra.BigOperators.Fin
import Mathlib.Algebra.Module.LinearMap.Basic
import Mathlib.Algebra.Order.BigOperators.Group.Finset
import Mathlib.Algebra.Order.BigOperators.Ring.Finset
import Mathlib.Algebra.BigOperators.Field
import Mathlib.Algebra.Order.Field.Rat
import Mathlib.Data.Fintype.BigOperators
import Mathlib.Data.Finset.Max
import Mathlib.Tactic.FieldSimp
import Mathlib.Tactic.LinearCombination
import VoxelEdit.Proofs.BoxIndex
import VoxelEdit.Region.Convex

/-!
# Half-spaces that separate

A position is a blend of points if it is a convex combination of them with rational weights.

* `farkas`: if a functional is at most zero wherever others are, a multiple of it is a sum of
  multiples of them. The induction is on the number of functionals.
* `exists_separates`: a position that is no blend is separated from the points by a half-space.
* `Separates.turn`: **a half-space that separates can be turned about the position and the points
  on its border until its border meets one more point.** The hull is found from this: three turns
  lead to a half-space whose border is spanned by points.
-/

namespace VoxelEdit

open Finset

/-! ## Farkas' lemma over the whole numbers -/

/-- If `b` is at most zero wherever all the `a i` are, then a positive multiple of `b` is a sum of
multiples of the `a i` that are not negative. -/
theorem farkas {W : Type} [AddCommGroup W] {n : ℕ} (a : Fin n → W →ₗ[ℤ] ℤ) (b : W →ₗ[ℤ] ℤ)
    (h : ∀ x, (∀ i, a i x ≤ 0) → b x ≤ 0) :
    ∃ (N : ℤ) (w : Fin n → ℤ), 0 < N ∧ (∀ i, 0 ≤ w i) ∧ ∀ x, N * b x = ∑ i, w i * a i x := by
  induction n generalizing b with
  | zero =>
    refine ⟨1, fun _ => 0, one_pos, fun _ => le_rfl, fun x => ?_⟩
    have h1 := h x fun i => i.elim0
    have h2 := h (-x) fun i => i.elim0
    rw [map_neg] at h2
    rw [Finset.univ_eq_empty, Finset.sum_empty]
    omega
  | succ n ih =>
    by_cases htail : ∀ x, (∀ i : Fin n, a i.succ x ≤ 0) → b x ≤ 0
    · -- the first functional is not needed
      obtain ⟨N, w, hN, hw, hsum⟩ := ih (fun i => a i.succ) b htail
      refine ⟨N, Fin.cons 0 w, hN, ?_, fun x => ?_⟩
      · intro i
        refine Fin.cases le_rfl (fun i => ?_) i
        rw [Fin.cons_succ]
        exact hw i
      · rw [Fin.sum_univ_succ, hsum]
        simp
    · -- along `x₀` the others let `b` grow, so the first one must stop it
      push Not at htail
      obtain ⟨x₀, hx₀, hb₀⟩ := htail
      have hc : 0 < a 0 x₀ := by
        by_contra hle
        have := h x₀ fun i => Fin.cases (not_lt.1 hle) hx₀ i
        omega
      set c := a 0 x₀ with hcdef
      -- projected along `x₀` to the kernel of the first
      have hproj : ∀ x, (∀ i : Fin n, (c • a i.succ - a i.succ x₀ • a 0) x ≤ 0) →
          (c • b - b x₀ • a 0) x ≤ 0 := by
        intro x hx
        have hy := h (c • x - a 0 x • x₀) ?_
        · simp only [map_sub, map_smul, smul_eq_mul] at hy
          simp only [LinearMap.sub_apply, LinearMap.smul_apply, smul_eq_mul]
          linarith [mul_comm (a 0 x) (b x₀)]
        · intro i
          refine Fin.cases ?_ (fun i => ?_) i
          · simp only [map_sub, map_smul, smul_eq_mul, ← hcdef]
            exact le_of_eq (by ring)
          · have hi := hx i
            simp only [LinearMap.sub_apply, LinearMap.smul_apply, smul_eq_mul] at hi
            simp only [map_sub, map_smul, smul_eq_mul]
            linarith [mul_comm (a 0 x) (a i.succ x₀)]
      obtain ⟨N, w, hN, hw, hsum⟩ := ih _ _ hproj
      have hfirst : 0 ≤ N * b x₀ - ∑ i, w i * a i.succ x₀ := by
        have h1 : ∑ i, w i * a i.succ x₀ ≤ 0 :=
          Finset.sum_nonpos fun i _ => mul_nonpos_of_nonneg_of_nonpos (hw i) (hx₀ i)
        have h2 : 0 < N * b x₀ := mul_pos hN hb₀
        omega
      refine ⟨N * c, Fin.cons (N * b x₀ - ∑ i, w i * a i.succ x₀) fun i => c * w i,
        mul_pos hN hc, ?_, fun x => ?_⟩
      · intro i
        refine Fin.cases ?_ (fun i => ?_) i
        · rw [Fin.cons_zero]
          exact hfirst
        · rw [Fin.cons_succ]
          exact mul_nonneg hc.le (hw i)
      · have hx := hsum x
        simp only [LinearMap.sub_apply, LinearMap.smul_apply, smul_eq_mul, mul_sub,
          Finset.sum_sub_distrib] at hx
        have h1 : ∑ i, w i * (c * a i.succ x) = ∑ i, c * w i * a i.succ x :=
          Finset.sum_congr rfl fun i _ => by ring
        have h2 : ∑ i, w i * (a i.succ x₀ * a 0 x) = (∑ i, w i * a i.succ x₀) * a 0 x := by
          rw [Finset.sum_mul]
          exact Finset.sum_congr rfl fun i _ => by ring
        rw [h1, h2] at hx
        rw [Fin.sum_univ_succ]
        simp only [Fin.cons_zero, Fin.cons_succ]
        linarith

/-! ## Blends -/

/-- A convex combination of points with rational weights. -/
def Pos.Blend (points : List Pos) (p : Pos) : Prop :=
  ∃ w : Fin points.length → ℚ, (∀ i, 0 ≤ w i) ∧ ∑ i, w i = 1 ∧
    ∑ i, w i * (points[i].x : ℚ) = p.x ∧ ∑ i, w i * (points[i].y : ℚ) = p.y ∧
    ∑ i, w i * (points[i].z : ℚ) = p.z

namespace HalfSpace

/-- How far a point lies past the border, in units of the normal. -/
def excess (h : HalfSpace) (p : Pos) : ℤ := h.normal.dot p - h.offset

theorem holds_iff {h : HalfSpace} {p : Pos} : h.holds p = true ↔ h.excess p ≤ 0 := by
  unfold holds excess
  rw [decide_eq_true_eq]
  omega

theorem excess_flipped (h : HalfSpace) (p : Pos) : h.flipped.excess p = -h.excess p := by
  simp only [flipped, excess, Pos.dot, Pos.neg_x, Pos.neg_y, Pos.neg_z]
  ring

/-- The half-space whose excess is a combination of two others. -/
def mix (h g : HalfSpace) (α β : ℤ) : HalfSpace :=
  ⟨h.normal.scale α + g.normal.scale β, α * h.offset + β * g.offset⟩

theorem excess_mix (h g : HalfSpace) (α β : ℤ) (p : Pos) :
    (h.mix g α β).excess p = α * h.excess p + β * g.excess p := by
  simp only [mix, excess, Pos.dot, Pos.scale, Pos.add_x, Pos.add_y, Pos.add_z]
  ring

/-- The half-space with a normal whose border goes through `q`. -/
def along (normal q : Pos) : HalfSpace := ⟨normal, normal.dot q⟩

theorem excess_along (normal q p : Pos) : (along normal q).excess p = normal.dot (p - q) := by
  simp only [along, excess, Pos.dot, Pos.sub_x, Pos.sub_y, Pos.sub_z]
  ring

theorem excess_along_self (normal q : Pos) : (along normal q).excess q = 0 := sub_self _

end HalfSpace

variable {points : List Pos} {p : Pos}

/-- **A half-space that holds all points holds their blends.** -/
theorem Pos.Blend.excess_le (hp : p.Blend points) {h : HalfSpace}
    (hh : ∀ s ∈ points, h.excess s ≤ 0) : h.excess p ≤ 0 := by
  obtain ⟨w, hw, hone, hx, hy, hz⟩ := hp
  have hsum : (h.excess p : ℚ) = ∑ i, w i * (h.excess points[i] : ℚ) := by
    calc (h.excess p : ℚ) = h.normal.x * p.x + h.normal.y * p.y + h.normal.z * p.z
          - h.offset * 1 := by
          simp only [HalfSpace.excess, Pos.dot]
          push_cast
          ring
      _ = ∑ i, w i * (h.excess points[i] : ℚ) := by
          rw [← hx, ← hy, ← hz, ← hone, Finset.mul_sum, Finset.mul_sum, Finset.mul_sum,
            Finset.mul_sum, ← Finset.sum_add_distrib, ← Finset.sum_add_distrib,
            ← Finset.sum_sub_distrib]
          refine Finset.sum_congr rfl fun i _ => ?_
          simp only [HalfSpace.excess, Pos.dot]
          push_cast
          ring
  have hle : ∑ i, w i * (h.excess points[i] : ℚ) ≤ 0 := by
    refine Finset.sum_nonpos fun i _ => mul_nonpos_of_nonneg_of_nonpos (hw i) ?_
    exact_mod_cast hh _ (List.getElem_mem _)
  rw [← hsum] at hle
  exact_mod_cast hle

/-! ## Half-spaces that separate -/

namespace HalfSpace

/-- A half-space holds the points, but not `p`. -/
structure Separates (h : HalfSpace) (points : List Pos) (p : Pos) : Prop where
  holds : ∀ s ∈ points, h.excess s ≤ 0
  past : 0 < h.excess p

/-- The excess at a point, as a functional of the half-space. -/
def excessAt (s : Pos) : ℤ × ℤ × ℤ × ℤ →ₗ[ℤ] ℤ where
  toFun v := HalfSpace.excess ⟨⟨v.1, v.2.1, v.2.2.1⟩, v.2.2.2⟩ s
  map_add' v v' := by
    simp only [excess, Pos.dot, Prod.fst_add, Prod.snd_add]
    ring
  map_smul' k v := by
    simp only [excess, Pos.dot, Prod.smul_fst, Prod.smul_snd, smul_eq_mul, RingHom.id_apply]
    ring

theorem excessAt_apply (s : Pos) (x y z o : ℤ) :
    excessAt s (x, y, z, o) = x * s.x + y * s.y + z * s.z - o := rfl

/-- **What is no blend can be separated.** -/
theorem exists_separates (hp : ¬ p.Blend points) : ∃ h : HalfSpace, h.Separates points p := by
  by_contra hno
  have hle : ∀ v, (∀ i : Fin points.length, excessAt points[i] v ≤ 0) → excessAt p v ≤ 0 := by
    intro v hv
    by_contra hlt
    refine hno ⟨⟨⟨v.1, v.2.1, v.2.2.1⟩, v.2.2.2⟩, ?_, not_le.1 hlt⟩
    intro s hs
    obtain ⟨i, hi, rfl⟩ := List.mem_iff_getElem.1 hs
    exact hv ⟨i, hi⟩
  obtain ⟨N, w, hN, hw, hsum⟩ := farkas _ _ hle
  -- the multiples, divided by `N`, are weights
  have hN' : (N : ℚ) ≠ 0 := by exact_mod_cast hN.ne'
  have weigh : ∀ (c : Pos → ℤ) (v : ℤ × ℤ × ℤ × ℤ), (∀ s, excessAt s v = c s) →
      ∑ i, (w i / N : ℚ) * (c points[i] : ℚ) = c p := by
    intro c v hc
    have h1 := hsum v
    simp only [hc] at h1
    have h2 : (N : ℚ) * c p = ∑ i, (w i : ℚ) * (c points[i] : ℚ) := by exact_mod_cast h1
    have h3 : ∑ i, (w i / N : ℚ) * (c points[i] : ℚ) =
        (∑ i, (w i : ℚ) * (c points[i] : ℚ)) / N := by
      rw [Finset.sum_div]
      exact Finset.sum_congr rfl fun i _ => by ring
    rw [h3, ← h2]
    exact mul_div_cancel_left₀ _ hN'
  refine hp ⟨fun i => w i / N, ?_, ?_, ?_, ?_, ?_⟩
  · intro i
    exact div_nonneg (by exact_mod_cast hw i) (by exact_mod_cast hN.le)
  · have h := weigh (fun _ => 1) (0, 0, 0, -1) fun s => by rw [excessAt_apply]; ring
    simpa using h
  · exact weigh (fun s => s.x) (1, 0, 0, 0) fun s => by rw [excessAt_apply]; ring
  · exact weigh (fun s => s.y) (0, 1, 0, 0) fun s => by rw [excessAt_apply]; ring
  · exact weigh (fun s => s.z) (0, 0, 1, 0) fun s => by rw [excessAt_apply]; ring

/-- Of the points where `g` is positive, one has the least quotient of `f` and `g`. -/
theorem exists_least_quotient (f g : Pos → ℤ) (hpos : ∃ s ∈ points, 0 < g s) :
    ∃ s₁ ∈ points, 0 < g s₁ ∧ ∀ s ∈ points, 0 < g s → f s₁ * g s ≤ f s * g s₁ := by
  obtain ⟨s₀, hmem₀, hpos₀⟩ := hpos
  set past := points.toFinset.filter fun s => 0 < g s with hpast
  have hnonempty : past.Nonempty :=
    ⟨s₀, Finset.mem_filter.2 ⟨List.mem_toFinset.2 hmem₀, hpos₀⟩⟩
  obtain ⟨s₁, hs₁, hmin⟩ := past.exists_min_image (fun s => (f s : ℚ) / (g s : ℚ)) hnonempty
  obtain ⟨hmem₁, hpos₁⟩ := Finset.mem_filter.1 hs₁
  refine ⟨s₁, List.mem_toFinset.1 hmem₁, hpos₁, fun s hmem hgs => ?_⟩
  have hq := hmin s (Finset.mem_filter.2 ⟨List.mem_toFinset.2 hmem, hgs⟩)
  have h1 : (0 : ℚ) < g s₁ := by exact_mod_cast hpos₁
  have h2 : (0 : ℚ) < g s := by exact_mod_cast hgs
  rw [div_le_div_iff₀ h1 h2] at hq
  exact_mod_cast hq

/-- **A turn.** A half-space that separates can be turned towards `g`, whose border goes through
`p`, until it meets one of the points off the border of `g`. Where both borders meet, the turned
one does too. -/
theorem Separates.turn {h g : HalfSpace} (hs : h.Separates points p) (hg : g.excess p = 0)
    (hne : ∃ s ∈ points, g.excess s ≠ 0) :
    ∃ h' : HalfSpace, h'.Separates points p ∧
      (∀ t, h.excess t = 0 → g.excess t = 0 → h'.excess t = 0) ∧
      ∃ s ∈ points, h'.excess s = 0 ∧ g.excess s ≠ 0 := by
  -- one of the two sides of `g` has points past it
  wlog hpos : ∃ s ∈ points, 0 < g.excess s generalizing g
  · have hflip : ∃ s ∈ points, 0 < g.flipped.excess s := by
      obtain ⟨s, hmem, hs0⟩ := hne
      refine ⟨s, hmem, ?_⟩
      have hle : ¬ 0 < g.excess s := fun h0 => hpos ⟨s, hmem, h0⟩
      rw [excess_flipped]
      omega
    obtain ⟨s, hmem, hs0⟩ := hflip
    obtain ⟨h', hsep, hkeep, t, ht, ht0, htg⟩ := this (g := g.flipped)
      (by rw [excess_flipped, hg, neg_zero]) ⟨s, hmem, hs0.ne'⟩ ⟨s, hmem, hs0⟩
    refine ⟨h', hsep, fun t h0 hgt => hkeep t h0 (by rw [excess_flipped, hgt, neg_zero]), t, ht,
      ht0, ?_⟩
    rw [excess_flipped] at htg
    omega
  -- past `g`, the border meets the point with the least quotient first
  obtain ⟨s₁, hmem₁, hpos₁, hmin⟩ := exists_least_quotient (fun s => -h.excess s) g.excess hpos
  have hle₁ := hs.holds s₁ hmem₁
  refine ⟨h.mix g (g.excess s₁) (-h.excess s₁), ⟨?_, ?_⟩, ?_, s₁, hmem₁, ?_, hpos₁.ne'⟩
  · intro s hmem
    rw [excess_mix]
    have hle := hs.holds s hmem
    by_cases hgs : 0 < g.excess s
    · linarith [hmin s hmem hgs, mul_comm (g.excess s₁) (h.excess s)]
    · have h1 : g.excess s₁ * h.excess s ≤ 0 :=
        mul_nonpos_of_nonneg_of_nonpos hpos₁.le hle
      have h2 : -h.excess s₁ * g.excess s ≤ 0 :=
        mul_nonpos_of_nonneg_of_nonpos (by omega) (by omega)
      omega
  · rw [excess_mix, hg, mul_zero, add_zero]
    exact mul_pos hpos₁ hs.past
  · intro t ht hgt
    rw [excess_mix, ht, hgt, mul_zero, mul_zero, add_zero]
  · rw [excess_mix]
    ring

end HalfSpace

end VoxelEdit
