import Mathlib.Data.List.Sort
import Mathlib.Data.Prod.Lex
import VoxelEdit.Proofs.BoxIndex

/-!
# Walking through a box

* `Box.mem_positions`, `Box.positions_pairwise`, `Box.length_positions`: the positions of a box,
  each once, in the order `Pos.Before`, as many as its volume.
* `Walk.step_room`: a step leaves less room, so that every walk ends, also one that starts outside
  of its box; `Walk.rest` lists what it still meets.
* `Walk.rest_start`: **a walk from the start meets the positions of the box.**
-/

namespace VoxelEdit

/-! ## The order of a walk -/

namespace Pos

/-- Lower in `y`, then in `z`, then in `x`. -/
def Before (p q : Pos) : Prop := p.y < q.y ∨ p.y = q.y ∧ (p.z < q.z ∨ p.z = q.z ∧ p.x < q.x)

variable {p q t : Pos}

theorem before_irrefl (p : Pos) : ¬ p.Before p := by
  unfold Before
  omega

theorem Before.asymm (h : p.Before q) : ¬ q.Before p := by
  unfold Before at *
  omega

instance : Std.Irrefl Before := ⟨before_irrefl⟩

instance : Std.Antisymm Before := ⟨fun _ _ h h' => absurd h' h.asymm⟩

end Pos

/-! ## The positions of a box -/

namespace Box

variable {b : Box} {p : Pos}

theorem mem_run {lo v : ℤ} {n : ℕ} : v ∈ run lo n ↔ lo ≤ v ∧ v < lo + n := by
  unfold run
  rw [List.mem_map]
  constructor
  · rintro ⟨i, hi, rfl⟩
    have := List.mem_range.1 hi
    omega
  · rintro ⟨h1, h2⟩
    exact ⟨(v - lo).toNat, List.mem_range.2 (by omega), by omega⟩

theorem run_pairwise (lo : ℤ) (n : ℕ) : (run lo n).Pairwise (· < ·) := by
  unfold run
  rw [List.pairwise_map]
  exact List.pairwise_lt_range.imp fun h => by omega

theorem length_run (lo : ℤ) (n : ℕ) : (run lo n).length = n := by
  simp [run]

theorem mem_positions : p ∈ b.positions ↔ b.contains p = true := by
  unfold positions
  simp only [List.mem_flatMap, List.mem_map, mem_run, contains_iff, dims_x, dims_y, dims_z]
  constructor
  · rintro ⟨y, hy, z, hz, x, hx, rfl⟩
    simp only
    omega
  · intro h
    exact ⟨p.y, by omega, p.z, by omega, p.x, by omega, rfl⟩

/-- The positions come in order. -/
theorem positions_pairwise (b : Box) : b.positions.Pairwise Pos.Before := by
  unfold positions
  rw [List.pairwise_flatMap]
  refine ⟨?_, ?_⟩
  · -- within a layer
    intro y _
    rw [List.pairwise_flatMap]
    refine ⟨?_, ?_⟩
    · intro z _
      rw [List.pairwise_map]
      exact (run_pairwise _ _).imp fun h => .inr ⟨rfl, .inr ⟨rfl, h⟩⟩
    · refine (run_pairwise _ _).imp fun hz p hp q hq => ?_
      obtain ⟨x, -, rfl⟩ := List.mem_map.1 hp
      obtain ⟨x', -, rfl⟩ := List.mem_map.1 hq
      exact .inr ⟨rfl, .inl hz⟩
  · -- from one layer to a later one
    refine (run_pairwise _ _).imp fun hy p hp q hq => ?_
    obtain ⟨z, -, hp⟩ := List.mem_flatMap.1 hp
    obtain ⟨x, -, rfl⟩ := List.mem_map.1 hp
    obtain ⟨z', -, hq⟩ := List.mem_flatMap.1 hq
    obtain ⟨x', -, rfl⟩ := List.mem_map.1 hq
    exact .inl hy

/-- There are as many as the volume. -/
theorem length_positions (hb : b.Ordered) : (b.positions.length : ℤ) = b.volume := by
  obtain ⟨hx, hy, hz⟩ := hb.dims_pos
  unfold positions volume
  simp only [List.length_flatMap, List.length_map, length_run, List.map_const',
    List.sum_replicate_nat]
  push_cast
  rw [Int.toNat_of_nonneg hx.le, Int.toNat_of_nonneg hy.le, Int.toNat_of_nonneg hz.le]
  ring

end Box

/-! ## Walks -/

namespace Walk

variable {w w' : Walk} {b : Box} {p q : Pos}

/-- How far a walk can still go along each axis, the slowest first. -/
def room (w : Walk) : ℕ × ℕ × ℕ :=
  match w.next? with
  | none => (0, 0, 0)
  | some p => ((w.box.max.y - p.y).toNat + 1, (w.box.max.z - p.z).toNat,
      (w.box.max.x - p.x).toNat)

/-- Less room, by the slowest axis that differs. -/
abbrev Less : ℕ × ℕ × ℕ → ℕ × ℕ × ℕ → Prop := Prod.Lex (· < ·) (Prod.Lex (· < ·) (· < ·))

/-- Where the walk goes next: along the row, to the next row, to the next layer, or nowhere. -/
theorem after_cases (b : Box) (p : Pos) :
    (p.x + 1 ≤ b.max.x ∧ after b p = some ⟨p.x + 1, p.y, p.z⟩) ∨
    (b.max.x < p.x + 1 ∧ p.z + 1 ≤ b.max.z ∧ after b p = some ⟨b.min.x, p.y, p.z + 1⟩) ∨
    (b.max.x < p.x + 1 ∧ b.max.z < p.z + 1 ∧ p.y + 1 ≤ b.max.y ∧
      after b p = some ⟨b.min.x, p.y + 1, b.min.z⟩) ∨
    ((b.max.y < p.y ∨ b.max.x < p.x + 1 ∧ b.max.z < p.z + 1 ∧ b.max.y < p.y + 1) ∧
      after b p = none) := by
  have habove {q : Pos} (hq : onward b p = q) (hy : b.max.y < q.y) : after b p = none := by
    rw [after, hq, if_neg (by omega)]
  have hbelow {q : Pos} (hq : onward b p = q) (hy : q.y ≤ b.max.y) : after b p = some q := by
    rw [after, hq, if_pos hy]
  by_cases hx : p.x + 1 ≤ b.max.x
  · have hq : onward b p = ⟨p.x + 1, p.y, p.z⟩ := if_pos hx
    rcases le_or_gt p.y b.max.y with hy | hy
    · exact .inl ⟨hx, hbelow hq hy⟩
    · exact .inr (.inr (.inr ⟨.inl hy, habove hq hy⟩))
  · by_cases hz : p.z + 1 ≤ b.max.z
    · have hq : onward b p = ⟨b.min.x, p.y, p.z + 1⟩ := by rw [onward, if_neg hx, if_pos hz]
      rcases le_or_gt p.y b.max.y with hy | hy
      · exact .inr (.inl ⟨by omega, hz, hbelow hq hy⟩)
      · exact .inr (.inr (.inr ⟨.inl hy, habove hq hy⟩))
    · have hq : onward b p = ⟨b.min.x, p.y + 1, b.min.z⟩ := by rw [onward, if_neg hx, if_neg hz]
      rcases le_or_gt (p.y + 1) b.max.y with hy | hy
      · exact .inr (.inr (.inl ⟨by omega, by omega, hy, hbelow hq hy⟩))
      · exact .inr (.inr (.inr ⟨.inr ⟨by omega, by omega, hy⟩, habove hq hy⟩))

/-- **A step leaves less room.** -/
theorem step_room (h : w.step = some (p, w')) : Less w'.room w.room := by
  obtain ⟨b, next⟩ := w
  cases next with
  | none => exact nomatch h
  | some q =>
    obtain ⟨rfl, rfl⟩ := Prod.mk.inj (Option.some.inj h)
    unfold room
    rcases after_cases b q with ⟨hx, h⟩ | ⟨-, hz, h⟩ | ⟨-, -, hy, h⟩ | ⟨-, h⟩
    · simp only [h]
      exact .right _ (.right _ (by omega))
    · simp only [h]
      exact .right _ (.left _ _ (by omega))
    · simp only [h]
      exact .left _ _ (by omega)
    · simp only [h]
      exact .left _ _ (by omega)

/-- What a walk still meets. -/
def rest (w : Walk) : List Pos :=
  match _h : w.step with
  | none => []
  | some (p, w') => p :: rest w'
termination_by w.room
decreasing_by exact step_room ‹_›

theorem rest_of_end (h : w.step = none) : w.rest = [] := by
  rw [rest]
  split
  · rfl
  · rename_i h'
    rw [h] at h'
    exact nomatch h'

theorem rest_of_step (h : w.step = some (p, w')) : w.rest = p :: w'.rest := by
  rw [rest]
  split
  · rename_i h'
    rw [h] at h'
    exact nomatch h'
  · rename_i h'
    rw [h] at h'
    obtain ⟨rfl, rfl⟩ := Prod.mk.inj (Option.some.inj h')
    rfl

/-- The next position is the first one after `p` that the box contains. -/
theorem after_some (hp : b.contains p = true) (h : after b p = some q) :
    b.contains q = true ∧ p.Before q ∧
      ∀ t, b.contains t = true → (p.Before t ↔ t = q ∨ q.Before t) := by
  simp only [Box.contains_iff, Pos.Before, Pos.ext_iff] at hp ⊢
  rcases after_cases b p with ⟨hx, h'⟩ | ⟨hx, hz, h'⟩ | ⟨hx, hz, hy, h'⟩ | ⟨hend, h'⟩
  · rw [h] at h'
    obtain rfl := Option.some.inj h'
    dsimp only
    refine ⟨by omega, by omega, fun t ht => by omega⟩
  · rw [h] at h'
    obtain rfl := Option.some.inj h'
    dsimp only
    refine ⟨by omega, by omega, fun t ht => by omega⟩
  · rw [h] at h'
    obtain rfl := Option.some.inj h'
    dsimp only
    refine ⟨by omega, by omega, fun t ht => by omega⟩
  · rw [h] at h'
    exact nomatch h'

/-- A walk ends at the last position of its box. -/
theorem after_none (h : after b p = none) {t : Pos} (ht : b.contains t = true) :
    ¬ p.Before t := by
  simp only [Box.contains_iff, Pos.Before] at ht ⊢
  rcases after_cases b p with ⟨hx, h'⟩ | ⟨hx, hz, h'⟩ | ⟨hx, hz, hy, h'⟩ | ⟨hend, h'⟩
  · rw [h] at h'
    exact nomatch h'
  · rw [h] at h'
    exact nomatch h'
  · rw [h] at h'
    exact nomatch h'
  · omega

/-- From a position of its box a walk meets that one and what comes after it, in order. -/
theorem rest_spec (w : Walk) (hw : w.next? = some p) (hp : w.box.contains p = true) :
    (∀ q, q ∈ w.rest ↔ w.box.contains q = true ∧ (q = p ∨ p.Before q)) ∧
      w.rest.Pairwise Pos.Before := by
  induction w using rest.induct generalizing p with
  | case1 w h =>
    rw [step, hw] at h
    exact nomatch h
  | case2 w p' w' h ih =>
    obtain ⟨b, next⟩ := w
    simp only at hw hp
    rw [hw] at h ⊢
    obtain ⟨rfl, hw'⟩ := Prod.mk.inj (Option.some.inj h)
    have hw' : w' = ⟨b, after b p⟩ := hw'.symm
    subst hw'
    rw [rest_of_step h]
    show (∀ q, _ ↔ b.contains q = true ∧ _) ∧ _
    cases hafter : after b p with
    | none =>
      -- the walk is over, and nothing comes after `p`
      rw [rest_of_end rfl]
      refine ⟨fun q => ?_, List.pairwise_singleton _ _⟩
      rw [List.mem_singleton]
      constructor
      · rintro rfl
        exact ⟨hp, .inl rfl⟩
      · rintro ⟨hq, rfl | hbefore⟩
        · rfl
        · exact absurd hbefore (after_none hafter hq)
    | some q₁ =>
      -- what comes after `p` is `q₁` and what comes after that
      obtain ⟨hin, hlt, hnext⟩ := after_some hp hafter
      rw [hafter] at ih
      obtain ⟨hmem, hsorted⟩ := ih rfl hin
      refine ⟨fun q => ?_, List.pairwise_cons.2 ⟨fun q hq => ?_, hsorted⟩⟩
      · rw [List.mem_cons, hmem]
        constructor
        · rintro (rfl | ⟨hq, h1⟩)
          · exact ⟨hp, .inl rfl⟩
          · exact ⟨hq, .inr ((hnext q hq).2 h1)⟩
        · rintro ⟨hq, rfl | h1⟩
          · exact .inl rfl
          · exact .inr ⟨hq, (hnext q hq).1 h1⟩
      · obtain ⟨hq, h1⟩ := (hmem q).1 hq
        exact (hnext q hq).2 h1

/-- **A walk from the start meets the positions of the box**, and no others. -/
theorem rest_start (hb : b.Ordered) : (start b).rest = b.positions := by
  have hmin : b.contains b.min = true := by
    obtain ⟨hx, hy, hz⟩ := hb
    rw [Box.contains_iff]
    omega
  obtain ⟨hmem, hsorted⟩ := rest_spec (start b) rfl hmin
  refine hsorted.eq_of_mem_iff b.positions_pairwise fun q => ?_
  rw [hmem, Box.mem_positions]
  refine ⟨fun h => h.1, fun h => ⟨h, ?_⟩⟩
  -- the smallest corner is the first position
  have hq : b.contains q = true := h
  rw [Box.contains_iff] at hq
  simp only [Pos.Before, Pos.ext_iff]
  omega

end Walk

end VoxelEdit
