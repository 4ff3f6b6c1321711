import VoxelEdit.Proofs.BoxWalk
import VoxelEdit.Proofs.RegionSound

/-!
# Walking through a region

The positions of a region are met by a walk through its box that skips what the region does not
contain.

* `Region.next?`: the next position, if there is one; `Region.drain`: all of them, one after the
  other. Both end because every step leaves less room.
* `Region.drain_eq_filter`: a walk through a region meets what the walk through the box meets and
  the region contains.
* `Region.iteration_exact`: **whatever region is reached, its walk meets every position that it
  contains, in the whole grid, once and in order, and nothing else; its size counts them.**
-/

namespace VoxelEdit.Region

section Walk

variable {R : Type} [Radius R] (r : Region R) {w w' : Walk} {p : Pos}

/-- The next position of a walk that lies in the region, and the walk from there on. -/
def next? (w : Walk) : Option (Pos × Walk) :=
  match _h : w.step with
  | none => none
  | some (p, w') => if r.contains p then some (p, w') else next? w'
termination_by w.room
decreasing_by exact Walk.step_room ‹_›

theorem next?_of_end (h : w.step = none) : r.next? w = none := by
  rw [next?]
  split
  · rfl
  · rename_i h'
    rw [h] at h'
    exact nomatch h'

theorem next?_of_step (h : w.step = some (p, w')) :
    r.next? w = if r.contains p then some (p, w') else r.next? w' := by
  rw [next?]
  split
  · rename_i h'
    rw [h] at h'
    exact nomatch h'
  · rename_i h'
    rw [h] at h'
    obtain ⟨rfl, rfl⟩ := Prod.mk.inj (Option.some.inj h')
    rfl

/-- What is skipped leaves less room, too. -/
theorem next?_room (w : Walk) (h : r.next? w = some (p, w')) : Walk.Less w'.room w.room := by
  induction w using Walk.rest.induct with
  | case1 w hend =>
    rw [r.next?_of_end hend] at h
    cases h
  | case2 w q w₁ hstep ih =>
    rw [r.next?_of_step hstep] at h
    have hroom := Walk.step_room hstep
    split at h
    · obtain ⟨-, rfl⟩ := Prod.mk.inj (Option.some.inj h)
      exact hroom
    · exact Trans.trans (ih h) hroom

/-- All that a walk still meets in the region. -/
def drain (w : Walk) : List Pos :=
  match _h : r.next? w with
  | none => []
  | some (p, w') => p :: drain w'
termination_by w.room
decreasing_by exact r.next?_room _ ‹_›

theorem drain_of_end (h : r.next? w = none) : r.drain w = [] := by
  rw [drain]
  split
  · rfl
  · rename_i h'
    rw [h] at h'
    exact nomatch h'

theorem drain_of_next (h : r.next? w = some (p, w')) : r.drain w = p :: r.drain w' := by
  rw [drain]
  split
  · rename_i h'
    rw [h] at h'
    exact nomatch h'
  · rename_i h'
    rw [h] at h'
    obtain ⟨rfl, rfl⟩ := Prod.mk.inj (Option.some.inj h')
    rfl

/-- Skipping a position does not change what is met. -/
theorem drain_of_skip (h : r.next? w = r.next? w') : r.drain w = r.drain w' := by
  cases hnext : r.next? w with
  | none => rw [r.drain_of_end hnext, r.drain_of_end (h.symm.trans hnext)]
  | some x =>
    obtain ⟨p, w₁⟩ := x
    rw [r.drain_of_next hnext, r.drain_of_next (h.symm.trans hnext)]

/-- **The region filters the walk through its box.** -/
theorem drain_eq_filter (w : Walk) : r.drain w = w.rest.filter r.contains := by
  induction w using Walk.rest.induct with
  | case1 w hend =>
    rw [r.drain_of_end (r.next?_of_end hend), Walk.rest_of_end hend]
    rfl
  | case2 w p w' hstep ih =>
    have hnext := r.next?_of_step hstep
    rw [Walk.rest_of_step hstep]
    by_cases hp : r.contains p = true
    · rw [if_pos hp] at hnext
      rw [List.filter_cons_of_pos hp, r.drain_of_next hnext, ih]
    · rw [if_neg hp] at hnext
      rw [List.filter_cons_of_neg hp, r.drain_of_skip hnext, ih]

end Walk

/-! ## Exactness -/

section Size

variable {R : Type} [Radius R] {r : Region R}

/-- The size is the number of positions, also where it is computed from the box. -/
theorem size_eq_length (hb : r.box.Ordered) : r.size = r.positions.length := by
  -- a region that fills its box has as many positions as the box
  have full : r.contains = r.box.contains → r.box.volume = r.positions.length := by
    intro hfull
    have hall : r.positions = r.box.positions := by
      unfold positions
      rw [hfull]
      exact List.filter_eq_self.2 fun p hp => Box.mem_positions.1 hp
    rw [hall]
    exact (Box.length_positions hb).symm
  obtain ⟨dim, s⟩ := r
  cases s with
  | cuboid c => exact full rfl
  | expand e => exact full rfl
  | sphere s => rfl
  | polygon g => rfl
  | convex c => rfl

/-- The positions of a region come in order, and so each of them once. -/
theorem positions_sorted (r : Region R) : r.positions.Pairwise Pos.Before :=
  r.box.positions_pairwise.filter _

end Size

variable {R : Type} [ExactRadius R] {r : Region R} {p : Pos}

/-- The positions are those that the region contains, as it contains none outside of its box. -/
theorem mem_positions (hr : r.Reached) : p ∈ r.positions ↔ r.contains p = true := by
  unfold positions
  rw [List.mem_filter, Box.mem_positions]
  exact ⟨fun h => h.2, fun h => ⟨hr.sound.contains_box h, h⟩⟩

/-- **Iteration is exact.** The walk through any region that is reached meets the positions of the
region: every position that it contains, in the whole grid, once, in the order `y`, `z`, `x`, and
nothing else. The size of the region is their number. -/
theorem iteration_exact (hr : r.Reached) :
    r.drain (.start r.box) = r.positions ∧
      (∀ p, p ∈ r.drain (.start r.box) ↔ r.contains p = true) ∧
      (r.drain (.start r.box)).Nodup ∧
      (r.drain (.start r.box)).Pairwise Pos.Before ∧
      r.size = (r.drain (.start r.box)).length := by
  have hb : r.box.Ordered := hr.sound.ordered
  have hdrain : r.drain (.start r.box) = r.positions := by
    rw [drain_eq_filter, Walk.rest_start hb]
    rfl
  have hsorted := r.positions_sorted
  rw [hdrain]
  exact ⟨rfl, fun p => mem_positions hr, hsorted.nodup, hsorted, size_eq_length hb⟩

/-- A triangle is picked point by point and moved. -/
theorem iteration_exact_triangle :
    ∃ r : Region ℝ, r.Reached ∧ ⟨12, 65, 2⟩ ∈ r.drain (.start r.box) ∧
      ⟨13, 65, 3⟩ ∉ r.drain (.start r.box) ∧ r.size = (r.drain (.start r.box)).length := by
  let r₁ : Region ℝ := ofPoint .polygon 0 .zero
  let r₂ : Region ℝ := ⟨0, .polygon (.make [⟨0, 0⟩, ⟨4, 0⟩] 0 1)⟩
  let r₃ : Region ℝ := ⟨0, .polygon (.make [⟨0, 0⟩, ⟨4, 0⟩, ⟨0, 4⟩] 0 1)⟩
  have h₁ : r₁.Reached := .ofPoint _ _ _
  have h₂ : r₂.Reached := .setVice ⟨4, 1, 0⟩ h₁ rfl
  have h₃ : r₃.Reached := .setVice ⟨0, 0, 4⟩ h₂ rfl
  have hr : (r₃.shift ⟨10, 64, 0⟩).Reached := .shift _ h₃
  obtain ⟨-, hmem, -, -, hsize⟩ := iteration_exact hr
  refine ⟨r₃.shift ⟨10, 64, 0⟩, hr, ?_, ?_, hsize⟩
  · rw [hmem]
    decide
  · rw [hmem]
    decide

end VoxelEdit.Region
