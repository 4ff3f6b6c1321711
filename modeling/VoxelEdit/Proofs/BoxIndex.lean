import Mathlib.Tactic.Linarith
import Mathlib.Tactic.Ring
import VoxelEdit.Grid.Box

/-!
# Numbering the positions of a box

In a box with its corners in order, `Box.indexOf` and `Box.posAt` are inverse to each other
between the positions of the box and the numbers below its volume (`posAt_indexOf`,
`indexOf_posAt`).
-/

namespace VoxelEdit

theorem Pos.within_iff {p lo hi : Pos} :
    p.within lo hi = true ↔
      (lo.x ≤ p.x ∧ p.x ≤ hi.x) ∧ (lo.y ≤ p.y ∧ p.y ≤ hi.y) ∧ lo.z ≤ p.z ∧ p.z ≤ hi.z := by
  simp [within, and_assoc]

@[simp] theorem Pos.add_x (p q : Pos) : (p + q).x = p.x + q.x := rfl
@[simp] theorem Pos.add_y (p q : Pos) : (p + q).y = p.y + q.y := rfl
@[simp] theorem Pos.add_z (p q : Pos) : (p + q).z = p.z + q.z := rfl
@[simp] theorem Pos.sub_x (p q : Pos) : (p - q).x = p.x - q.x := rfl
@[simp] theorem Pos.sub_y (p q : Pos) : (p - q).y = p.y - q.y := rfl
@[simp] theorem Pos.sub_z (p q : Pos) : (p - q).z = p.z - q.z := rfl
@[simp] theorem Pos.neg_x (p : Pos) : (-p).x = -p.x := rfl
@[simp] theorem Pos.neg_y (p : Pos) : (-p).y = -p.y := rfl
@[simp] theorem Pos.neg_z (p : Pos) : (-p).z = -p.z := rfl
@[simp] theorem Pos.splat_x (v : Int) : (splat v).x = v := rfl
@[simp] theorem Pos.splat_y (v : Int) : (splat v).y = v := rfl
@[simp] theorem Pos.splat_z (v : Int) : (splat v).z = v := rfl
@[simp] theorem Pos.zero_x : zero.x = 0 := rfl
@[simp] theorem Pos.zero_y : zero.y = 0 := rfl
@[simp] theorem Pos.zero_z : zero.z = 0 := rfl

namespace Box

/-- The corners are in order. -/
structure Ordered (b : Box) : Prop where
  x : b.min.x ≤ b.max.x
  y : b.min.y ≤ b.max.y
  z : b.min.z ≤ b.max.z

theorem contains_iff {b : Box} {p : Pos} :
    b.contains p = true ↔ (b.min.x ≤ p.x ∧ p.x ≤ b.max.x) ∧ (b.min.y ≤ p.y ∧ p.y ≤ b.max.y) ∧
      b.min.z ≤ p.z ∧ p.z ≤ b.max.z :=
  Pos.within_iff

theorem span_ordered (p q : Pos) : (span p q).Ordered := by
  constructor <;> simp only [span, Pos.inf, Pos.sup] <;> omega

theorem point_ordered (p : Pos) : (point p).Ordered := ⟨le_rfl, le_rfl, le_rfl⟩

theorem Ordered.cover {b : Box} (hb : b.Ordered) (p : Pos) : (b.cover p).Ordered := by
  obtain ⟨hx, hy, hz⟩ := hb
  constructor <;> simp only [Box.cover, Pos.inf, Pos.sup] <;> omega

/-- A box that covers positions one after the other contains them, and what it contained. -/
theorem contains_foldl_cover {ps : List Pos} {b : Box} {q : Pos} (hq : b.contains q = true ∨ q ∈ ps) :
    (ps.foldl Box.cover b).contains q = true := by
  induction ps generalizing b with
  | nil => exact hq.resolve_right (by simp)
  | cons p ps ih =>
    refine ih ?_
    rcases hq with hq | hq
    · left
      rw [contains_iff] at hq ⊢
      simp only [Box.cover, Pos.inf, Pos.sup]
      omega
    · rcases List.mem_cons.1 hq with rfl | hq
      · left
        rw [contains_iff]
        simp only [Box.cover, Pos.inf, Pos.sup]
        omega
      · exact .inr hq

theorem Ordered.foldl_cover {b : Box} (hb : b.Ordered) (ps : List Pos) :
    (ps.foldl Box.cover b).Ordered := by
  induction ps generalizing b with
  | nil => exact hb
  | cons p ps ih => exact ih (hb.cover p)

theorem Ordered.offset {b : Box} (hb : b.Ordered) (d : Pos) : (b.offset d).Ordered := by
  obtain ⟨hx, hy, hz⟩ := hb
  constructor <;> simp only [Box.offset, Pos.add_x, Pos.add_y, Pos.add_z] <;> omega

@[simp] theorem dims_x (b : Box) : b.dims.x = b.max.x - b.min.x + 1 := rfl
@[simp] theorem dims_y (b : Box) : b.dims.y = b.max.y - b.min.y + 1 := rfl
@[simp] theorem dims_z (b : Box) : b.dims.z = b.max.z - b.min.z + 1 := rfl

/-- The number of a position from its three distances to the smallest corner. -/
theorem indexOf_eq (b : Box) (p : Pos) :
    b.indexOf p = (p.x - b.min.x) + b.dims.x * ((p.z - b.min.z) + b.dims.z * (p.y - b.min.y)) := by
  simp only [indexOf, Pos.sub_x, Pos.sub_y, Pos.sub_z]
  ring

variable {b : Box} {p : Pos}

theorem Ordered.dims_pos (hb : b.Ordered) : 0 < b.dims.x ∧ 0 < b.dims.y ∧ 0 < b.dims.z := by
  obtain ⟨hx, hy, hz⟩ := hb
  simp only [dims_x, dims_y, dims_z]
  omega

theorem indexOf_nonneg (hp : b.contains p = true) : 0 ≤ b.indexOf p := by
  obtain ⟨⟨hx, hx'⟩, ⟨hy, -⟩, hz, hz'⟩ := contains_iff.1 hp
  have h1 : 0 ≤ b.dims.z * (p.y - b.min.y) := by
    apply mul_nonneg
    · simp only [dims_z]; omega
    · omega
  have h2 : 0 ≤ b.dims.x * ((p.z - b.min.z) + b.dims.z * (p.y - b.min.y)) := by
    apply mul_nonneg
    · simp only [dims_x]; omega
    · omega
  rw [indexOf_eq]
  omega

theorem indexOf_lt_volume (hp : b.contains p = true) : b.indexOf p < b.volume := by
  obtain ⟨⟨hx, hx'⟩, ⟨hy, hy'⟩, hz, hz'⟩ := contains_iff.1 hp
  have h1 : b.dims.z * (p.y - b.min.y) ≤ b.dims.z * (b.dims.y - 1) := by
    apply mul_le_mul_of_nonneg_left
    · simp only [dims_y]; omega
    · simp only [dims_z]; omega
  have h2 : b.dims.x * ((p.z - b.min.z) + b.dims.z * (p.y - b.min.y)) ≤
      b.dims.x * ((b.dims.z - 1) + b.dims.z * (b.dims.y - 1)) := by
    apply mul_le_mul_of_nonneg_left
    · have : p.z - b.min.z ≤ b.dims.z - 1 := by simp only [dims_z]; omega
      omega
    · simp only [dims_x]; omega
  have h3 : b.volume =
      b.dims.x * ((b.dims.z - 1) + b.dims.z * (b.dims.y - 1)) + b.dims.x := by
    unfold volume; ring
  have h4 : p.x - b.min.x < b.dims.x := by simp only [dims_x]; omega
  rw [indexOf_eq, h3]
  omega

/-- **From positions to numbers and back.** -/
theorem posAt_indexOf (hp : b.contains p = true) : b.posAt (b.indexOf p) = p := by
  obtain ⟨⟨hx, hx'⟩, ⟨hy, hy'⟩, hz, hz'⟩ := contains_iff.1 hp
  have hdx : 0 < b.dims.x := by simp only [dims_x]; omega
  have hdz : 0 < b.dims.z := by simp only [dims_z]; omega
  have hrx : 0 ≤ p.x - b.min.x ∧ p.x - b.min.x < b.dims.x := by simp only [dims_x]; omega
  have hrz : 0 ≤ p.z - b.min.z ∧ p.z - b.min.z < b.dims.z := by simp only [dims_z]; omega
  -- the number without its lowest digit
  have hq : b.indexOf p / b.dims.x = (p.z - b.min.z) + b.dims.z * (p.y - b.min.y) := by
    rw [indexOf_eq, Int.add_mul_ediv_left _ _ hdx.ne', Int.ediv_eq_zero_of_lt hrx.1 hrx.2, zero_add]
  have hnx : b.indexOf p % b.dims.x = p.x - b.min.x := by
    rw [indexOf_eq, Int.add_mul_emod_self_left, Int.emod_eq_of_lt hrx.1 hrx.2]
  have hnz : b.indexOf p / b.dims.x % b.dims.z = p.z - b.min.z := by
    rw [hq, Int.add_mul_emod_self_left, Int.emod_eq_of_lt hrz.1 hrz.2]
  have hny : b.indexOf p / (b.dims.x * b.dims.z) = p.y - b.min.y := by
    rw [← Int.ediv_ediv_of_nonneg hdx.le, hq, Int.add_mul_ediv_left _ _ hdz.ne',
      Int.ediv_eq_zero_of_lt hrz.1 hrz.2, zero_add]
  unfold posAt
  simp only [hnx, hny, hnz]
  ext
  · simp only [Pos.add_x]; omega
  · simp only [Pos.add_y]; omega
  · simp only [Pos.add_z]; omega

variable {n : Int}

/-- The positions of the numbers below the volume lie in the box. -/
theorem contains_posAt (hb : b.Ordered) (h0 : 0 ≤ n) (hn : n < b.volume) :
    b.contains (b.posAt n) = true := by
  obtain ⟨hdx, -, hdz⟩ := hb.dims_pos
  have hx := Int.emod_nonneg n hdx.ne'
  have hx' := Int.emod_lt_of_pos n hdx
  have hz := Int.emod_nonneg (n / b.dims.x) hdz.ne'
  have hz' := Int.emod_lt_of_pos (n / b.dims.x) hdz
  have hy : 0 ≤ n / (b.dims.x * b.dims.z) := Int.ediv_nonneg h0 (mul_pos hdx hdz).le
  have hy' : n / (b.dims.x * b.dims.z) < b.dims.y := by
    apply Int.ediv_lt_of_lt_mul (mul_pos hdx hdz)
    have : b.dims.y * (b.dims.x * b.dims.z) = b.volume := by unfold volume; ring
    omega
  rw [contains_iff]
  simp only [posAt, Pos.add_x, Pos.add_y, Pos.add_z]
  simp only [dims_x, dims_y, dims_z] at *
  omega

/-- **From numbers to positions and back.** -/
theorem indexOf_posAt (hb : b.Ordered) (n : Int) : b.indexOf (b.posAt n) = n := by
  have hdx : 0 ≤ b.dims.x := hb.dims_pos.1.le
  have h1 := Int.emod_add_mul_ediv n b.dims.x
  have h2 := Int.emod_add_mul_ediv (n / b.dims.x) b.dims.z
  have h3 : n / (b.dims.x * b.dims.z) = n / b.dims.x / b.dims.z :=
    (Int.ediv_ediv_of_nonneg hdx).symm
  rw [indexOf_eq]
  simp only [posAt, Pos.add_x, Pos.add_y, Pos.add_z, add_sub_cancel_left, h3]
  rw [h2, h1]

end Box

end VoxelEdit
