import Mathlib.Data.Set.Function
import VoxelEdit.Proofs.BoxWalk

/-!
# A walk counts

The numbers of a box's positions and a walk through it are two accounts of one order.

* `Box.posAt_bijOn`: the numbers below the volume stand for the positions of the box, each for one.
* `Walk.indexOf_after`, `Walk.indexOf_last`: a step leads to the next number, and the walk ends at
  the last one.
* `Walk.calls_start`: **after `k` calls a walk stands at number `k`**, or at its end.
* `Walk.counts_positions`: what every call answers, and what is left then.
-/

namespace VoxelEdit

namespace Box

variable {b : Box}

theorem Ordered.volume_pos (hb : b.Ordered) : 0 < b.volume := by
  obtain ⟨hx, hy, hz⟩ := hb.dims_pos
  exact Int.mul_pos (Int.mul_pos hx hy) hz

/-- The first number stands for the smallest corner. -/
theorem posAt_zero (b : Box) : b.posAt 0 = b.min := by
  simp [posAt, Pos.ext_iff]

theorem posAt_invOn (hb : b.Ordered) :
    Set.InvOn b.indexOf b.posAt {n | 0 ≤ n ∧ n < b.volume} {p | b.contains p = true} :=
  ⟨fun n _ => indexOf_posAt hb n, fun _ hp => posAt_indexOf hp⟩

/-- **Numbers and positions.** The numbers below the volume stand for the positions of the box, each
for one of them. -/
theorem posAt_bijOn (hb : b.Ordered) :
    Set.BijOn b.posAt {n | 0 ≤ n ∧ n < b.volume} {p | b.contains p = true} := by
  refine (posAt_invOn hb).bijOn ?_ ?_
  · intro n hn
    exact contains_posAt hb hn.1 hn.2
  · intro p hp
    exact ⟨indexOf_nonneg hp, indexOf_lt_volume hp⟩

end Box

namespace Walk

variable {b : Box} {p q : Pos}

/-! ## One step -/

/-- **A step leads to the next number**, whether it stays in its row or turns into the next row or
layer. -/
theorem indexOf_after (hp : b.contains p = true) (h : after b p = some q) :
    b.indexOf q = b.indexOf p + 1 := by
  rw [Box.contains_iff] at hp
  rw [Box.indexOf_eq, Box.indexOf_eq]
  simp only [Box.dims_x, Box.dims_z]
  rcases after_cases b p with ⟨-, hq⟩ | ⟨hx, -, hq⟩ | ⟨hx, hz, -, hq⟩ | ⟨-, hq⟩
  · obtain rfl := Option.some.inj (h.symm.trans hq)
    dsimp only
    ring
  · -- the row was at its end
    have hend : p.x = b.max.x := by omega
    obtain rfl := Option.some.inj (h.symm.trans hq)
    dsimp only
    rw [hend]
    ring
  · -- the row and the layer were at their ends
    have hend : p.x = b.max.x := by omega
    have hlayer : p.z = b.max.z := by omega
    obtain rfl := Option.some.inj (h.symm.trans hq)
    dsimp only
    rw [hend, hlayer]
    ring
  · exact nomatch h.symm.trans hq

/-- The walk ends at the last number. -/
theorem indexOf_last (hp : b.contains p = true) (h : after b p = none) :
    b.indexOf p + 1 = b.volume := by
  rw [Box.contains_iff] at hp
  rcases after_cases b p with ⟨-, hq⟩ | ⟨-, -, hq⟩ | ⟨-, -, -, hq⟩ | ⟨hend, -⟩
  · exact nomatch h.symm.trans hq
  · exact nomatch h.symm.trans hq
  · exact nomatch h.symm.trans hq
  · have hxEnd : p.x = b.max.x := by omega
    have hyEnd : p.y = b.max.y := by omega
    have hzEnd : p.z = b.max.z := by omega
    rw [Box.indexOf_eq, hxEnd, hyEnd, hzEnd]
    simp only [Box.volume, Box.dims_x, Box.dims_y, Box.dims_z]
    ring

/-- **Where the walk goes from a number.** -/
theorem after_posAt (hb : b.Ordered) {n : ℤ} (h0 : 0 ≤ n) (hn : n < b.volume) :
    after b (b.posAt n) = if n + 1 < b.volume then some (b.posAt (n + 1)) else none := by
  have hin : b.contains (b.posAt n) = true := Box.contains_posAt hb h0 hn
  cases hq : after b (b.posAt n) with
  | none =>
    have hlast := indexOf_last hin hq
    rw [Box.indexOf_posAt hb] at hlast
    rw [if_neg (by omega)]
  | some q =>
    obtain ⟨hqin, -, -⟩ := after_some hin hq
    have hnext := indexOf_after hin hq
    rw [Box.indexOf_posAt hb] at hnext
    have hlt := Box.indexOf_lt_volume hqin
    rw [if_pos (by omega), ← hnext, Box.posAt_indexOf hqin]

/-! ## Many calls -/

/-- One call: the position that is met, if there is one, and the walk behind it. At its end a walk
stays as it is. -/
def call (w : Walk) : Option Pos × Walk :=
  match w.step with
  | none => (none, w)
  | some (p, w') => (some p, w')

/-- The walk after `k` calls. -/
def calls : (k : ℕ) → Walk → Walk
  | 0, w => w
  | k + 1, w => calls k w.call.2

/-- The walk that has met the positions of the numbers below `n`. -/
def past (b : Box) (n : ℕ) : Walk := ⟨b, if (n : ℤ) < b.volume then some (b.posAt n) else none⟩

theorem past_zero (hb : b.Ordered) : past b 0 = start b := by
  have hpos := hb.volume_pos
  simp [past, start, hpos, Box.posAt_zero]

theorem step_past (hb : b.Ordered) {n : ℕ} (hn : (n : ℤ) < b.volume) :
    (past b n).step = some (b.posAt n, past b (n + 1)) := by
  have hafter := after_posAt hb (Int.natCast_nonneg n) hn
  simp [past, step, hn, hafter]

theorem step_past_end {n : ℕ} (hn : b.volume ≤ n) : (past b n).step = none := by
  simp [past, step, hn]

/-- What a call answers, and where it leaves the walk. -/
theorem call_past (hb : b.Ordered) (n : ℕ) : (past b n).call =
    (if (n : ℤ) < b.volume then some (b.posAt n) else none, past b (n + 1)) := by
  unfold call
  by_cases hn : (n : ℤ) < b.volume
  · rw [step_past hb hn, if_pos hn]
  · have hend : past b n = past b (n + 1) := by
      have hn' : ¬ ((n + 1 : ℕ) : ℤ) < b.volume := by omega
      unfold past
      rw [if_neg hn, if_neg hn']
    rw [step_past_end (by omega), if_neg hn, hend]

theorem calls_past (hb : b.Ordered) (k n : ℕ) : calls k (past b n) = past b (n + k) := by
  induction k generalizing n with
  | zero => rfl
  | succ k ih =>
    rw [calls, call_past hb, ih]
    congr 1
    omega

/-- **After `k` calls a walk stands at number `k`**, or at its end. -/
theorem calls_start (hb : b.Ordered) (k : ℕ) : calls k (start b) = past b k := by
  rw [← past_zero hb, calls_past hb, Nat.zero_add]

/-- What is left after `n` positions. -/
theorem remaining_past (hb : b.Ordered) (n : ℕ) :
    (past b n).remaining = b.volume - min (n : ℤ) b.volume := by
  unfold remaining past
  by_cases hn : (n : ℤ) < b.volume
  · simp only [hn, if_true, Box.indexOf_posAt hb]
    omega
  · simp only [hn, if_false]
    omega

/-- At most `k` steps meet the positions of the next numbers. -/
theorem take_past (hb : b.Ordered) (k n : ℕ) : take k (past b n) =
    ((List.range' n (min k (b.volume.toNat - n))).map fun i : ℕ => b.posAt i, past b (n + k)) := by
  induction k generalizing n with
  | zero => simp [take]
  | succ k ih =>
    by_cases hn : (n : ℤ) < b.volume
    · have hcount : min (k + 1) (b.volume.toNat - n) =
          min k (b.volume.toNat - (n + 1)) + 1 := by omega
      have hreach : n + 1 + k = n + (k + 1) := by omega
      simp only [take, step_past hb hn, ih, hcount, List.range'_succ, List.map_cons, hreach]
    · have hcount : min (k + 1) (b.volume.toNat - n) = 0 := by omega
      have hend : past b n = past b (n + (k + 1)) := by
        have hn' : ¬ ((n + (k + 1) : ℕ) : ℤ) < b.volume := by omega
        unfold past
        rw [if_neg hn, if_neg hn']
      simp [take, step_past_end (show b.volume ≤ n by omega), hcount, ← hend]

/-- **Numbers, walks and what is left of them agree.** In a box with its corners in order the numbers
below the volume stand for the positions, each for one, and `indexOf` goes back. The `k`-th call of
a walk from the start answers the position of number `k`, and nothing from the volume on; so a walk
of at most `k` steps meets the positions of the first numbers in order. After `k` calls the volume
less `k` positions are left, or none. -/
theorem counts_positions (hb : b.Ordered) :
    Set.BijOn b.posAt {n | 0 ≤ n ∧ n < b.volume} {p | b.contains p = true} ∧
    Set.InvOn b.indexOf b.posAt {n | 0 ≤ n ∧ n < b.volume} {p | b.contains p = true} ∧
    ∀ k : ℕ,
      (calls k (start b)).call.1 = (if (k : ℤ) < b.volume then some (b.posAt k) else none) ∧
      (calls k (start b)).remaining = b.volume - min (k : ℤ) b.volume ∧
      take k (start b) = ((List.range (min k b.volume.toNat)).map fun i : ℕ => b.posAt i,
        calls k (start b)) := by
  refine ⟨Box.posAt_bijOn hb, Box.posAt_invOn hb, fun k => ?_⟩
  rw [calls_start hb]
  refine ⟨?_, remaining_past hb k, ?_⟩
  · rw [call_past hb]
  · have htake := take_past hb k 0
    rw [past_zero hb, Nat.sub_zero, Nat.zero_add, ← List.range_eq_range'] at htake
    exact htake

/-- A box of one layer with two rows: the fifth call answers the middle of the second row, and after
four calls two positions are left. -/
theorem counts_positions_layer :
    let b : Box := ⟨⟨-1, 0, 2⟩, ⟨1, 0, 3⟩⟩
    b.Ordered ∧ (calls 4 (start b)).call.1 = some ⟨0, 0, 3⟩ ∧ (calls 4 (start b)).remaining = 2 := by
  intro b
  have hb : b.Ordered := ⟨by decide, by decide, by decide⟩
  obtain ⟨-, -, hcalls⟩ := counts_positions hb
  obtain ⟨hcall, hremaining, -⟩ := hcalls 4
  have hbelow : ((4 : ℕ) : ℤ) < b.volume := by decide
  have hfifth : b.posAt (4 : ℕ) = ⟨0, 0, 3⟩ := by decide
  rw [if_pos hbelow, hfifth] at hcall
  exact ⟨hb, hcall, hremaining⟩

end Walk

end VoxelEdit
