import Mathlib.Algebra.Order.Field.Basic
import Mathlib.Algebra.Order.Field.Rat
import Mathlib.Data.List.Range
import Mathlib.Tactic.FieldSimp
import Mathlib.Tactic.Linarith
import Mathlib.Tactic.LinearCombination
import Mathlib.Tactic.Ring
import VoxelEdit.Grid.Axis
import VoxelEdit.Grid.Line

/-!
# What a voxel line looks like

On each axis the error of a track says how far the coordinate is behind or ahead of the straight
line. It never leaves `[0, steps)`, so that one correction for each step is enough.

* `Track.Holds`: the track after `k` steps, by its error. `Track.Holds.next`: **one step keeps it.**
* `Track.Holds.near`: so a coordinate is never more than half a block off the straight line.
* `linePoints_eq`: the positions of a line are those of its three tracks, step by step.
* `line_near_straight`: **a line has one position more than it has steps, leads from end to end, moves
  along some axis at every step, and is at most half a block off on each axis.**
-/

namespace VoxelEdit

namespace Track

/-- A track from `a` to `b` after `k` of its `steps`: the error is how far it is off the straight
line. -/
structure Holds (steps a b : Int) (k : Nat) (t : Track) : Prop where
  length : t.length = (b - a).natAbs
  toward : t.toward = if a < b then 1 else -1
  low : 0 ≤ t.error
  high : t.error < steps
  value : (t.value - a) * steps = k * (b - a) + t.toward * (t.error - steps / 2)

variable {steps a b : Int} {k : Nat} {t : Track}

theorem start_holds (hsteps : 0 < steps) : (start steps a b).Holds steps a b 0 where
  length := rfl
  toward := rfl
  low := by
    show 0 ≤ steps / 2
    omega
  high := by
    show steps / 2 < steps
    omega
  value := by
    show (a - a) * steps = (0 : Nat) * (b - a) + _ * (steps / 2 - steps / 2)
    simp

/-- The direction and the length of a track are those of the way from `a` to `b`. -/
theorem Holds.toward_mul (h : t.Holds steps a b k) : t.toward * t.length = b - a := by
  rw [h.toward, h.length]
  split <;> omega

/-- **One step**: what the error loses is what the straight line gains, and one correction brings it
back. -/
theorem Holds.next (h : t.Holds steps a b k) (hlength : ((b - a).natAbs : Int) ≤ steps) :
    (t.next steps).Holds steps a b (k + 1) := by
  have hlow := h.low
  have hhigh := h.high
  have hvalue := h.value
  have htoward := h.toward_mul
  have hnonneg : 0 ≤ t.length := h.length ▸ Int.natCast_nonneg _
  rw [← h.length] at hlength
  unfold Track.next
  dsimp only
  split <;>
  · refine ⟨h.length, h.toward, ?_, ?_, ?_⟩ <;> dsimp only
    · omega
    · omega
    · push_cast
      linear_combination hvalue + htoward

/-- A step goes on towards `b`, or stays on this axis. -/
theorem Holds.next_value (h : t.Holds steps a b k) : (t.next steps).value = t.value ∨
    (t.next steps).value = t.value + (b - a).sign := by
  have hlow := h.low
  have hlength := h.length
  unfold Track.next
  dsimp only
  split
  · -- the error has fallen below zero, so the two ends differ
    right
    dsimp only
    rw [h.toward]
    split
    · rw [Int.sign_eq_one_of_pos (by omega)]
    · rw [Int.sign_eq_neg_one_of_neg (by omega)]
  · exact .inl rfl

/-- An axis that is as long as the line moves at every step. -/
theorem Holds.next_ne (h : t.Holds steps a b k) (hlead : ((b - a).natAbs : Int) = steps) :
    (t.next steps).value ≠ t.value := by
  have hhigh := h.high
  have hmoved : t.error - t.length < 0 := by
    rw [h.length, hlead]
    omega
  unfold Track.next
  dsimp only
  rw [if_pos hmoved, h.toward]
  dsimp only
  split <;> omega

/-- **A coordinate is at most half a block off the straight line**, here in parts of `2 * steps`. -/
theorem Holds.near (h : t.Holds steps a b k) :
    |2 * ((t.value - a) * steps - k * (b - a))| ≤ steps := by
  have hlow := h.low
  have hhigh := h.high
  have hoff : (t.value - a) * steps - k * (b - a) = t.toward * (t.error - steps / 2) := by
    rw [h.value]
    ring
  rw [hoff, h.toward, abs_le]
  split <;> omega

theorem Holds.near_straight (h : t.Holds steps a b k) :
    |(t.value : ℚ) - (a + k * (b - a) / steps)| ≤ 1 / 2 := by
  have hsteps : (0 : ℚ) < steps := Int.cast_pos.2 (h.low.trans_lt h.high)
  have hoff : (t.value : ℚ) - (a + k * (b - a) / steps) =
      (2 * ((t.value - a) * steps - k * (b - a)) : ℤ) / (2 * steps) := by
    push_cast
    field_simp
    ring
  have hnear : ((|2 * ((t.value - a) * steps - k * (b - a))| : ℤ) : ℚ) ≤ steps := Int.cast_le.2 h.near
  rw [hoff, abs_div, abs_of_pos (by positivity : (0 : ℚ) < 2 * steps), div_le_iff₀ (by positivity),
    ← Int.cast_abs]
  linarith

/-- After all its steps a track has reached its end. -/
theorem Holds.value_eq (h : t.Holds steps a b k) (hk : (k : Int) = steps) : t.value = b := by
  have hnear := h.near
  have hsteps : 0 < steps := h.low.trans_lt h.high
  have hoff : 2 * ((t.value - a) * steps - k * (b - a)) = 2 * (t.value - b) * steps := by
    rw [hk]
    ring
  rw [hoff, abs_mul, abs_of_pos hsteps] at hnear
  have hone : |2 * (t.value - b)| ≤ 1 :=
    le_of_mul_le_mul_right (by rwa [one_mul]) hsteps
  rw [abs_le] at hone
  omega

/-- The track after `k` steps. -/
def after (steps : Int) (t : Track) (k : Nat) : Track := (next steps)^[k] t

theorem after_succ (steps : Int) (t : Track) (k : Nat) :
    t.after steps (k + 1) = (t.after steps k).next steps := Function.iterate_succ_apply' _ _ _

/-- **A run of steps** from the start. -/
theorem after_holds (hsteps : 0 < steps) (hlength : ((b - a).natAbs : Int) ≤ steps) (k : Nat) :
    ((start steps a b).after steps k).Holds steps a b k := by
  induction k with
  | zero => exact start_holds hsteps
  | succ k ih =>
    rw [after_succ]
    exact ih.next hlength

end Track

/-- **A line is its tracks, step by step.** -/
theorem linePoints_eq (steps : Int) (n : Nat) (x y z : Track) : linePoints steps n x y z =
    (List.range (n + 1)).map fun k =>
      ⟨(x.after steps k).value, (y.after steps k).value, (z.after steps k).value⟩ := by
  induction n generalizing x y z with
  | zero => rfl
  | succ n ih =>
    rw [linePoints, ih, List.range_succ_eq_map (n := n + 1), List.map_cons, List.map_map]
    rfl

/-! ## Lines -/

namespace Pos

/-- The largest difference of two positions along an axis. -/
def reach (a b : Pos) : Nat := max (b.x - a.x).natAbs (max (b.y - a.y).natAbs (b.z - a.z).natAbs)

variable (a b : Pos)

theorem natAbs_le_reach (axis : Axis) : (b.get axis - a.get axis).natAbs ≤ a.reach b := by
  unfold reach
  cases axis <;> simp only [get] <;> omega

/-- Some axis is as long as the line. -/
theorem exists_reach : ∃ axis, (b.get axis - a.get axis).natAbs = a.reach b := by
  unfold reach
  rcases le_total (max (b.y - a.y).natAbs (b.z - a.z).natAbs) (b.x - a.x).natAbs with hx | hx
  · exact ⟨.x, by simp only [get]; omega⟩
  rcases le_total (b.z - a.z).natAbs (b.y - a.y).natAbs with hy | hy
  · exact ⟨.y, by simp only [get]; omega⟩
  · exact ⟨.z, by simp only [get]; omega⟩

/-- The track of an axis after `k` steps of a line. -/
def track (k : Nat) (axis : Axis) : Track :=
  (Track.start (a.reach b) (a.get axis) (b.get axis)).after (a.reach b) k

/-- The position after `k` steps of a line. -/
def onLine (k : Nat) : Pos := ⟨(a.track b k .x).value, (a.track b k .y).value, (a.track b k .z).value⟩

theorem get_onLine (k : Nat) (axis : Axis) : (a.onLine b k).get axis = (a.track b k axis).value := by
  cases axis <;> rfl

theorem line_eq : line a b = (List.range (a.reach b + 1)).map (a.onLine b) := linePoints_eq _ _ _ _ _

/-- A step of a line from `a` to `b`: each coordinate stays or goes on towards `b` by one, and one of
them does go on. -/
def LineStep (p q : Pos) : Prop :=
  (∀ axis, q.get axis = p.get axis ∨ q.get axis = p.get axis + (b.get axis - a.get axis).sign) ∧
    ∃ axis, q.get axis ≠ p.get axis

variable {a b}

theorem track_holds (hreach : 0 < a.reach b) (k : Nat) (axis : Axis) :
    (a.track b k axis).Holds (a.reach b) (a.get axis) (b.get axis) k :=
  Track.after_holds (Int.natCast_pos.2 hreach) (Int.ofNat_le.2 (a.natAbs_le_reach b axis)) k

theorem onLine_step (hreach : 0 < a.reach b) (k : Nat) :
    a.LineStep b (a.onLine b k) (a.onLine b (k + 1)) := by
  have hsucc (axis : Axis) : (a.onLine b (k + 1)).get axis =
      ((a.track b k axis).next (a.reach b)).value := by
    rw [get_onLine, track, Track.after_succ]
    rfl
  refine ⟨fun axis => ?_, ?_⟩
  · rw [hsucc, get_onLine]
    exact (track_holds hreach k axis).next_value
  · obtain ⟨axis, hlead⟩ := a.exists_reach b
    refine ⟨axis, ?_⟩
    rw [hsucc, get_onLine]
    exact (track_holds hreach k axis).next_ne (congrArg Int.ofNat hlead)

theorem onLine_zero : a.onLine b 0 = a := rfl

/-- The ends of a line without steps are the same. -/
theorem eq_of_reach (hreach : a.reach b = 0) : a = b := by
  unfold reach at hreach
  apply Pos.ext <;> omega

theorem onLine_reach : a.onLine b (a.reach b) = b := by
  rcases Nat.eq_zero_or_pos (a.reach b) with hreach | hreach
  · rw [hreach, onLine_zero]
    exact eq_of_reach hreach
  · have hend (axis : Axis) : (a.onLine b (a.reach b)).get axis = b.get axis := by
      rw [get_onLine]
      exact (track_holds hreach _ axis).value_eq rfl
    exact Pos.ext (hend .x) (hend .y) (hend .z)

theorem onLine_near {k : Nat} (hk : k ≤ a.reach b) (axis : Axis) :
    |((a.onLine b k).get axis : ℚ) - (a.get axis + k * (b.get axis - a.get axis) / a.reach b)| ≤
      1 / 2 := by
  rcases Nat.eq_zero_or_pos (a.reach b) with hreach | hreach
  · obtain rfl : k = 0 := by omega
    simp [onLine_zero]
  · rw [get_onLine]
    exact (track_holds hreach k axis).near_straight

end Pos

/-- **A voxel line is connected, complete and close to the straight line**, for any two ends. Its
number of steps is the largest difference `a.reach b` along an axis; each of them moves at least one
coordinate, each coordinate by at most one and never back; and after `k` of them no coordinate is more
than half a block off the straight line. -/
theorem line_near_straight (a b : Pos) :
    (line a b).length = a.reach b + 1 ∧ (line a b).head? = some a ∧ (line a b).getLast? = some b ∧
      (line a b).IsChain (a.LineStep b) ∧
      ∀ (k : Nat) (p : Pos), (line a b)[k]? = some p → ∀ axis,
        |(p.get axis : ℚ) - (a.get axis + k * (b.get axis - a.get axis) / a.reach b)| ≤ 1 / 2 := by
  rw [a.line_eq b]
  refine ⟨by simp, ?_, ?_, ?_, fun k p hp axis => ?_⟩
  · rw [List.head?_map, List.head?_range, if_neg (Nat.succ_ne_zero _)]
    rfl
  · rw [List.getLast?_map, List.getLast?_range, if_neg (Nat.succ_ne_zero _)]
    exact congrArg some Pos.onLine_reach
  · rw [List.isChain_map, List.isChain_range_succ]
    exact fun k hk => Pos.onLine_step (by omega) k
  · obtain ⟨hk, rfl⟩ := List.getElem?_eq_some_iff.1 hp
    rw [List.getElem_map, List.getElem_range]
    simp only [List.length_map, List.length_range] at hk
    exact Pos.onLine_near (by omega) axis

/-- A line of five steps: after two of them it is at `2, 1, -1`, where the straight line is at
`2, 4/5, -6/5`. -/
theorem line_near_straight_slope :
    let l := line .zero ⟨5, 2, -3⟩
    l.length = 6 ∧ l.getLast? = some ⟨5, 2, -3⟩ ∧ l[2]? = some ⟨2, 1, -1⟩ ∧
      |((-1 : ℤ) : ℚ) - ((0 : ℤ) + (2 : ℕ) * ((-3 : ℤ) - (0 : ℤ)) / (5 : ℕ))| ≤ 1 / 2 := by
  intro l
  obtain ⟨hlength, -, hlast, -, hnear⟩ := line_near_straight .zero ⟨5, 2, -3⟩
  have hsecond : l[2]? = some ⟨2, 1, -1⟩ := by decide
  exact ⟨hlength, hlast, hsecond, hnear 2 _ hsecond .z⟩

end VoxelEdit
