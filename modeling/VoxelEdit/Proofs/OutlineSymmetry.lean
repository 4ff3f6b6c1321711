import VoxelEdit.Grid.Axis
import VoxelEdit.Proofs.OutlineSides

/-!
# Outlines that are traced otherwise or mirrored

Whether a column lies inside is decided by a ray to one side only, and a vertex on the row of the ray
counts as below it. Neither makes a difference.

* `crosses_other_ray`: a ray to the other side crosses exactly the other edges of those that pass the
  row, which are even in number around an outline.
* `crosses_other_rows`: if a vertex on the row counts as above it, an edge changes its answer where
  one end lies on the ray and the other one does not. Such edges are even in number too, since the
  runs of vertices on the ray begin and end.
* `encloses_traced_or_mirrored`: **an outline encloses the same columns wherever it begins and
  whichever way it runs, and its mirror images enclose the mirrored ones.**
-/

namespace VoxelEdit

/-- The mirror image of a column: one of its coordinates is negated. -/
def Column.mirror (axis : Axis) (c : Column) : Column :=
  match axis with
  | .x => { c with x := -c.x }
  | .y => c
  | .z => { c with z := -c.z }

@[simp] theorem Column.mirror_mirror (axis : Axis) (c : Column) : (c.mirror axis).mirror axis = c := by
  cases axis <;> simp [Column.mirror]

namespace Polygon

variable {points : List Column} {p a b : Column}

/-! ## Mirrored edges -/

/-- In a mirror image the sides of an edge change places. -/
theorem area_mirror {axis : Axis} (haxis : axis ≠ .y) (p a b : Column) :
    area (p.mirror axis) (a.mirror axis) (b.mirror axis) = -area p a b := by
  cases axis with
  | y => exact absurd rfl haxis
  | x | z =>
    unfold area Column.mirror
    ring

/-- A part of a stretch lies between its ends. -/
theorem between_of_mul_eq {part whole v w : ℤ} (hpart : 0 ≤ part) (hle : part ≤ whole)
    (hwhole : 0 < whole) (h : v * part = whole * w) : min 0 v ≤ w ∧ w ≤ max 0 v := by
  constructor
  · have hlow : whole * min 0 v ≤ whole * w := calc
      whole * min 0 v = min 0 v * whole := mul_comm _ _
      _ ≤ min 0 v * part := mul_le_mul_of_nonpos_left hle (min_le_left 0 v)
      _ ≤ v * part := mul_le_mul_of_nonneg_right (min_le_right 0 v) hpart
      _ = whole * w := h
    exact le_of_mul_le_mul_left hlow hwhole
  · have hhigh : whole * w ≤ whole * max 0 v := calc
      whole * w = v * part := h.symm
      _ ≤ max 0 v * part := mul_le_mul_of_nonneg_right (le_max_right 0 v) hpart
      _ ≤ max 0 v * whole := mul_le_mul_of_nonneg_left hle (le_max_left 0 v)
      _ = whole * max 0 v := mul_comm _ _
    exact le_of_mul_le_mul_left hhigh hwhole

/-- **On the line of an edge and on a row that the edge meets, a column lies on the edge.** -/
theorem onSegment_of_level (h : area p a b = 0) (hne : a.z ≠ b.z) (hlo : min a.z b.z ≤ p.z)
    (hhi : p.z ≤ max a.z b.z) : onSegment p a b = true := by
  wlog hlt : a.z < b.z generalizing a b with hrec
  · rw [← onSegment_swap]
    rw [min_comm] at hlo
    rw [max_comm] at hhi
    exact hrec (by rw [area_swap, h, neg_zero]) hne.symm hlo hhi (by omega)
  have hline : (b.x - a.x) * (p.z - a.z) = (b.z - a.z) * (p.x - a.x) := sub_eq_zero.1 h
  obtain ⟨hleft, hright⟩ := between_of_mul_eq (by omega) (by omega) (by omega) hline
  rw [onSegment_iff]
  exact ⟨h, by omega, hlo, hhi⟩

/-- Both pairs differ, or neither. -/
theorem bne_eq_bne_iff {x y u v : Bool} :
    (x != y) = (u != v) ↔ ((x = true ↔ y = true) ↔ (u = true ↔ v = true)) := by
  cases x <;> cases y <;> cases u <;> cases v <;> decide

/-! ## The other ray -/

/-- **A ray to the other side crosses the other edges that pass the row**, unless it starts on one. -/
theorem crosses_other_ray (hoff : onSegment p a b = false) :
    (crosses (p.mirror .x) (a.mirror .x) (b.mirror .x) != crosses p a b) =
      ((a.z > p.z : Bool) != (b.z > p.z : Bool)) := by
  -- an edge that passes the row does not do so right at the column
  have harea : a.z ≠ b.z → min a.z b.z ≤ p.z → p.z ≤ max a.z b.z → area p a b ≠ 0 := by
    intro hne hlo hhi hzero
    rw [onSegment_of_level hzero hne hlo hhi] at hoff
    exact nomatch hoff
  have hother : crosses (p.mirror .x) (a.mirror .x) (b.mirror .x) = true ↔
      (a.z ≤ p.z ∧ p.z < b.z ∧ area p a b < 0) ∨ (b.z ≤ p.z ∧ p.z < a.z ∧ 0 < area p a b) := by
    rw [crosses_iff_area, area_mirror (show Axis.x ≠ .y by decide), neg_pos, neg_lt_zero]
    rfl
  rw [bne_eq_bne_iff, hother, crosses_iff_area, decide_eq_true_eq, decide_eq_true_eq]
  omega

/-! ## The other rows -/

/-- A vertex on the row of a column, on its ray. -/
def onRay (p c : Column) : Bool := c.z = p.z && p.x < c.x

/-- Seen from a vertex on its row, a column lies on the one side or on the other. -/
theorem area_of_level (h : a.z = p.z) :
    (p.z < b.z → (0 < area p a b ↔ p.x < a.x)) ∧ (b.z < p.z → (area p a b < 0 ↔ p.x < a.x)) := by
  have harea : area p a b = (b.z - p.z) * (a.x - p.x) := by
    unfold area
    rw [h]
    ring
  rw [harea]
  constructor
  · intro hb
    rw [mul_pos_iff_of_pos_left (by omega), sub_pos]
  · intro hb
    rw [← neg_pos, neg_mul_eq_neg_mul, neg_sub, mul_pos_iff_of_pos_left (by omega), sub_pos]

/-- **If a vertex on the row counts as above it, an edge changes its answer where it has one end on
the ray**, unless the column lies on it. -/
theorem crosses_other_rows (hoff : onSegment p a b = false) :
    (crosses (p.mirror .z) (a.mirror .z) (b.mirror .z) != crosses p a b) =
      (onRay p a != onRay p b) := by
  have hother : crosses (p.mirror .z) (a.mirror .z) (b.mirror .z) = true ↔
      (p.z ≤ a.z ∧ b.z < p.z ∧ area p a b < 0) ∨ (p.z ≤ b.z ∧ a.z < p.z ∧ 0 < area p a b) := by
    rw [crosses_iff_area, area_mirror (show Axis.z ≠ .y by decide), neg_pos, neg_lt_zero]
    simp only [Column.mirror, neg_le_neg_iff, neg_lt_neg_iff]
  rw [bne_eq_bne_iff, hother, crosses_iff_area]
  simp only [onRay, Bool.and_eq_true, decide_eq_true_eq]
  by_cases ha : a.z = p.z
  · obtain ⟨habove, hbelow⟩ := area_of_level (b := b) ha
    by_cases hb : b.z = p.z
    · -- on its row the edge lies to one side of the column
      have harea : area p a b = 0 := by
        unfold area
        rw [ha, hb]
        ring
      have hapart : ¬ (min a.x b.x ≤ p.x ∧ p.x ≤ max a.x b.x) := by
        intro hbetween
        rw [onSegment_iff.2 ⟨harea, hbetween, by omega⟩] at hoff
        exact nomatch hoff
      omega
    · omega
  · by_cases hb : b.z = p.z
    · obtain ⟨habove, hbelow⟩ := area_of_level (b := a) hb
      have hswap := area_swap p a b
      omega
    · omega

/-! ## Outlines -/

/-- **Two outlines enclose alike, if their edges answer alike**: each has the column on it, or not,
and of those that have not, as many are crossed up to an even number. -/
theorem encloses_eq {points' : List Column} {p' : Column} (move : Column × Column → Column × Column)
    (hring : (ring points').Perm ((ring points).map move))
    (hon : ∀ e, onSegment p' (move e).1 (move e).2 = onSegment p e.1 e.2)
    (hcross : (∀ e ∈ ring points, onSegment p e.1 e.2 = false) →
      (ring points).countP (fun e => crosses p' (move e).1 (move e).2) % 2 =
        (ring points).countP (fun e => crosses p e.1 e.2) % 2) :
    encloses points' p' = encloses points p := by
  have hany : (∃ e ∈ ring points', onSegment p' e.1 e.2 = true) ↔
      ∃ e ∈ ring points, onSegment p e.1 e.2 = true := by
    simp only [hring.mem_iff, List.mem_map, exists_exists_and_eq_and, hon]
  have hcount : (ring points').countP (fun e => crosses p' e.1 e.2) =
      (ring points).countP (fun e => crosses p' (move e).1 (move e).2) := by
    rw [hring.countP_eq, List.countP_map]
    rfl
  rw [Bool.eq_iff_iff, encloses_iff, encloses_iff, hany, hcount]
  by_cases hsome : ∃ e ∈ ring points, onSegment p e.1 e.2 = true
  · simp only [hsome, true_or]
  · have hoff : ∀ e ∈ ring points, onSegment p e.1 e.2 = false := by
      intro e he
      exact Bool.eq_false_iff.2 fun hyes => hsome ⟨e, he, hyes⟩
    rw [hcross hoff]

/-- An outline encloses the same columns wherever it begins. -/
theorem encloses_rotate (points : List Column) (n : ℕ) (p : Column) :
    encloses (points.rotate n) p = encloses points p := by
  have hring : (ring (points.rotate n)).Perm ((ring points).map id) := by
    rw [List.map_id]
    exact ring_rotate points n
  exact encloses_eq id hring (fun _ => rfl) fun _ => rfl

/-- An outline encloses the same columns whichever way it runs. -/
theorem encloses_reverse (points : List Column) (p : Column) :
    encloses points.reverse p = encloses points p := by
  refine encloses_eq Prod.swap (ring_reverse points) (fun e => onSegment_swap p e.1 e.2) fun _ => ?_
  simp only [Prod.fst_swap, Prod.snd_swap, crosses_swap]

theorem onSegment_mirror (axis : Axis) (p a b : Column) :
    onSegment (p.mirror axis) (a.mirror axis) (b.mirror axis) = onSegment p a b := by
  rw [Bool.eq_iff_iff, onSegment_iff, onSegment_iff]
  cases axis with
  | y => exact Iff.rfl
  | x | z =>
    rw [area_mirror, neg_eq_zero]
    · simp only [Column.mirror]
      omega
    · decide

/-- **The mirror image of an outline encloses the mirrored columns.** -/
theorem encloses_mirror (axis : Axis) (points : List Column) (p : Column) :
    encloses (points.map (Column.mirror axis)) (p.mirror axis) = encloses points p := by
  have hring : (ring (points.map (Column.mirror axis))).Perm
      ((ring points).map (Prod.map (Column.mirror axis) (Column.mirror axis))) := by
    rw [ring_map]
  refine encloses_eq _ hring (fun e => onSegment_mirror axis p e.1 e.2) fun hoff => ?_
  cases axis with
  | x => exact parity_eq (fun c => (c.z > p.z : Bool)) fun e he => crosses_other_ray (hoff e he)
  | y => rfl
  | z => exact parity_eq (onRay p) fun e he => crosses_other_rows (hoff e he)

/-- **What an outline encloses does not depend on how it is traced or which way it lies.** Its columns
are the same if it begins at another vertex or runs the other way round, also if it crosses itself,
runs along a line or comes back to a vertex, and they are mirrored with it. -/
theorem encloses_traced_or_mirrored (points : List Column) (p : Column) :
    (∀ n, encloses (points.rotate n) p = encloses points p) ∧
      encloses points.reverse p = encloses points p ∧
      ∀ axis, encloses (points.map (Column.mirror axis)) (p.mirror axis) = encloses points p :=
  ⟨fun n => encloses_rotate points n p, encloses_reverse points p,
    fun axis => encloses_mirror axis points p⟩

end Polygon

end VoxelEdit
