import Mathlib.Tactic.Linarith
import Mathlib.Tactic.LinearCombination
import Mathlib.Tactic.Ring
import VoxelEdit.Proofs.OutlineRing

/-!
# Sides of an edge

* `area`: on which side of an edge a column lies. Both tests of an edge are about its sign
  (`onSegment_iff`, `crosses_iff_area`), and do not ask which way the edge runs.
* `onSegment_mix`: a column on an edge is a mix of its ends.
* `encloses_halfplane`: **what an outline encloses lies on every side of a line on which all its
  vertices lie.** From a column beyond the line, one of the two rays leads away from it and crosses
  nothing. So the other one crosses all edges that pass the row, which are even in number.
-/

namespace VoxelEdit.Polygon

variable {points : List Column} {p a b : Column}

theorem area_swap (p a b : Column) : area p b a = -area p a b := by
  unfold area
  ring

@[simp] theorem area_start (a b : Column) : area a a b = 0 := by
  unfold area
  ring

@[simp] theorem area_end (a b : Column) : area b a b = 0 := by
  unfold area
  ring

/-- The ray crosses an edge whose ends it lies between, if it starts left of where the edge is. -/
theorem crosses_iff : crosses p a b = true ↔
    (a.z ≤ p.z ∧ p.z < b.z ∧ (p.x - a.x) * (b.z - a.z) < (b.x - a.x) * (p.z - a.z)) ∨
      (b.z ≤ p.z ∧ p.z < a.z ∧ (b.x - a.x) * (p.z - a.z) < (p.x - a.x) * (b.z - a.z)) := by
  have hwhole : crosses p a b = ((a.z > p.z : Bool) != (b.z > p.z : Bool) &&
      if b.z > a.z then (p.x - a.x) * (b.z - a.z) < (b.x - a.x) * (p.z - a.z)
      else (p.x - a.x) * (b.z - a.z) > (b.x - a.x) * (p.z - a.z)) := rfl
  rw [hwhole]
  by_cases ha : a.z > p.z
  · by_cases hb : b.z > p.z
    · have h1 : ¬ a.z ≤ p.z := by omega
      have h2 : ¬ b.z ≤ p.z := by omega
      simp [ha, hb, h1, h2]
    · have hba : ¬ b.z > a.z := by omega
      simp [ha, hb, hba]
      omega
  · by_cases hb : b.z > p.z
    · have hba : b.z > a.z := by omega
      simp [ha, hb, hba]
      omega
    · simp [ha, hb]

theorem onSegment_iff : onSegment p a b = true ↔
    area p a b = 0 ∧ (min a.x b.x ≤ p.x ∧ p.x ≤ max a.x b.x) ∧
      min a.z b.z ≤ p.z ∧ p.z ≤ max a.z b.z := by
  unfold onSegment alongside
  simp only [Bool.and_eq_true, beq_iff_eq, decide_eq_true_eq, and_assoc]

theorem crosses_iff_area : crosses p a b = true ↔
    (a.z ≤ p.z ∧ p.z < b.z ∧ 0 < area p a b) ∨ (b.z ≤ p.z ∧ p.z < a.z ∧ area p a b < 0) := by
  have hpos : 0 < area p a b ↔ (p.x - a.x) * (b.z - a.z) < (b.x - a.x) * (p.z - a.z) := by
    rw [area, sub_pos, mul_comm (b.z - a.z)]
  have hneg : area p a b < 0 ↔ (b.x - a.x) * (p.z - a.z) < (p.x - a.x) * (b.z - a.z) := by
    rw [area, sub_neg, mul_comm (b.z - a.z)]
  rw [crosses_iff, hpos, hneg]

theorem onSegment_swap (p a b : Column) : onSegment p b a = onSegment p a b := by
  rw [Bool.eq_iff_iff, onSegment_iff, onSegment_iff, area_swap, neg_eq_zero, min_comm b.x, max_comm b.x,
    min_comm b.z, max_comm b.z]

theorem crosses_swap (p a b : Column) : crosses p b a = crosses p a b := by
  rw [Bool.eq_iff_iff, crosses_iff_area, crosses_iff_area, area_swap]
  omega

/-- What an outline encloses is known from its edges. -/
theorem encloses_iff : encloses points p = true ↔
    (∃ e ∈ ring points, onSegment p e.1 e.2 = true) ∨
      (ring points).countP (fun e => crosses p e.1 e.2) % 2 = 1 := by
  unfold encloses
  simp only [Bool.or_eq_true, List.any_eq_true, beq_iff_eq]

/-- **The vertices of an outline are on it.** -/
theorem encloses_vertex (ha : a ∈ points) : encloses points a = true := by
  obtain ⟨b, hb⟩ := exists_mem_ring ha
  have hon : onSegment a a b = true := by
    rw [onSegment_iff]
    exact ⟨area_start a b, by omega, by omega⟩
  exact encloses_iff.2 (.inl ⟨(a, b), hb, hon⟩)

/-! ## Beyond a line -/

/-- A column on an edge is a mix of its ends. -/
theorem onSegment_mix (h : onSegment p a b = true) : ∃ s t : ℤ, 0 ≤ s ∧ 0 ≤ t ∧ 0 < s + t ∧
    (s + t) * p.x = s * a.x + t * b.x ∧ (s + t) * p.z = s * a.z + t * b.z := by
  obtain ⟨harea, hx, hz⟩ := onSegment_iff.1 h
  unfold area at harea
  -- the distances from the ends are the weights, along an axis on which the ends differ
  rcases lt_trichotomy a.x b.x with hlt | heq | hgt
  · refine ⟨b.x - p.x, p.x - a.x, by omega, by omega, by omega, by ring, ?_⟩
    linear_combination harea
  · have hpx : p.x = a.x := by omega
    rcases lt_trichotomy a.z b.z with hlt | heqz | hgt
    · refine ⟨b.z - p.z, p.z - a.z, by omega, by omega, by omega, ?_, by ring⟩
      rw [hpx, heq]
      ring
    · have hpz : p.z = a.z := by omega
      exact ⟨1, 0, by omega, by omega, by omega, by rw [hpx]; ring, by rw [hpz]; ring⟩
    · refine ⟨p.z - b.z, a.z - p.z, by omega, by omega, by omega, ?_, by ring⟩
      rw [hpx, heq]
      ring
  · refine ⟨p.x - b.x, a.x - p.x, by omega, by omega, by omega, by ring, ?_⟩
    linear_combination -harea

variable {u w k : ℤ}

/-- On an edge whose ends lie on one side of a line, nothing lies beyond the line. -/
theorem le_of_onSegment (ha : u * a.x + w * a.z ≤ k) (hb : u * b.x + w * b.z ≤ k)
    (h : onSegment p a b = true) : u * p.x + w * p.z ≤ k := by
  obtain ⟨s, t, hs, ht, hpos, hx, hz⟩ := onSegment_mix h
  have hle : (s + t) * (u * p.x + w * p.z) ≤ (s + t) * k := calc
    (s + t) * (u * p.x + w * p.z) = u * ((s + t) * p.x) + w * ((s + t) * p.z) := by ring
    _ = s * (u * a.x + w * a.z) + t * (u * b.x + w * b.z) := by rw [hx, hz]; ring
    _ ≤ s * k + t * k := add_le_add (mul_le_mul_of_nonneg_left ha hs) (mul_le_mul_of_nonneg_left hb ht)
    _ = (s + t) * k := by ring
  exact le_of_mul_le_mul_left hle hpos

/-- An edge that passes the row upwards, with both ends on one side of a line, does so on that side
of a column that lies beyond the line. -/
theorem area_of_beyond (ha : u * a.x + w * a.z ≤ k) (hb : u * b.x + w * b.z ≤ k)
    (hp : k < u * p.x + w * p.z) (hlo : a.z ≤ p.z) (hhi : p.z < b.z) : u * area p a b < 0 := by
  -- where the edge passes the row it lies as far from the column as the area says
  have hpass : (b.z - p.z) * (u * a.x + w * a.z) + (p.z - a.z) * (u * b.x + w * b.z) =
      (b.z - a.z) * (u * p.x + w * p.z) + u * area p a b := by
    unfold area
    ring
  have hle : (b.z - p.z) * (u * a.x + w * a.z) + (p.z - a.z) * (u * b.x + w * b.z) ≤
      (b.z - a.z) * k := calc
    _ ≤ (b.z - p.z) * k + (p.z - a.z) * k :=
      add_le_add (mul_le_mul_of_nonneg_left ha (by omega)) (mul_le_mul_of_nonneg_left hb (by omega))
    _ = (b.z - a.z) * k := by ring
  have hlt : (b.z - a.z) * k < (b.z - a.z) * (u * p.x + w * p.z) :=
    mul_lt_mul_of_pos_left hp (by omega)
  linarith

/-- **What an outline encloses lies on every side of a line on which all its vertices lie.** -/
theorem encloses_halfplane (hall : ∀ c ∈ points, u * c.x + w * c.z ≤ k)
    (h : encloses points p = true) : u * p.x + w * p.z ≤ k := by
  by_contra hbeyond
  have hp : k < u * p.x + w * p.z := not_le.1 hbeyond
  have hup : ∀ e ∈ ring points, e.1.z ≤ p.z → p.z < e.2.z → u * area p e.1 e.2 < 0 := by
    intro e he hlo hhi
    obtain ⟨h1, h2⟩ := mem_of_mem_ring he
    exact area_of_beyond (hall _ h1) (hall _ h2) hp hlo hhi
  have hdown : ∀ e ∈ ring points, e.2.z ≤ p.z → p.z < e.1.z → 0 < u * area p e.1 e.2 := by
    intro e he hlo hhi
    obtain ⟨h1, h2⟩ := mem_of_mem_ring he
    have hneg := area_of_beyond (hall _ h2) (hall _ h1) hp hlo hhi
    rw [area_swap, mul_neg, neg_lt_zero] at hneg
    exact hneg
  rcases encloses_iff.1 h with ⟨e, he, hon⟩ | hodd
  · obtain ⟨h1, h2⟩ := mem_of_mem_ring he
    exact hbeyond (le_of_onSegment (hall _ h1) (hall _ h2) hon)
  · rcases le_total 0 u with hu | hu
    · -- the ray leads away from the line
      have hnone : (ring points).countP (fun e => crosses p e.1 e.2) = 0 := by
        refine List.countP_eq_zero.2 fun e he hcross => ?_
        rcases crosses_iff_area.1 hcross with ⟨hlo, hhi, harea⟩ | ⟨hlo, hhi, harea⟩
        · have hnonneg := mul_nonneg hu harea.le
          have hneg := hup e he hlo hhi
          omega
        · have hnonpos := mul_nonpos_of_nonneg_of_nonpos hu harea.le
          have hpos := hdown e he hlo hhi
          omega
      omega
    · -- the other ray does, so that this one crosses whatever passes the row
      have hevery : (ring points).countP (fun e => crosses p e.1 e.2) =
          (ring points).countP fun e => (e.1.z > p.z : Bool) != (e.2.z > p.z : Bool) := by
        refine List.countP_congr fun e he => ?_
        rw [crosses_iff_area, bne_iff_ne, ne_eq, decide_eq_decide]
        have hpos : p.z < e.2.z → e.1.z ≤ p.z → 0 < area p e.1 e.2 := by
          intro hhi hlo
          exact pos_of_mul_neg_right (hup e he hlo hhi) hu
        have hneg : p.z < e.1.z → e.2.z ≤ p.z → area p e.1 e.2 < 0 := by
          intro hhi hlo
          exact neg_of_mul_pos_right (hdown e he hlo hhi) hu
        omega
      have heven := ring_changes_even (fun c => (c.z > p.z : Bool)) points
      omega

end VoxelEdit.Polygon
