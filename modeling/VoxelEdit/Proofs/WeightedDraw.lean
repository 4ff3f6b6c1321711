import Mathlib
import VoxelEdit.Proofs.FreshSampling

/-!
# A draw is fair

A draw of `unit`, a part of the total weight, falls on the first candidate with a weight at which
the sum of the weights reaches `unit` times the total (`FirstAt`). In exact arithmetic:

* `index?_eq_some_iff`, `exists_firstAt`: there is always such a candidate, so the choice of the last
  one, which makes up for rounding, is never needed.
* `firstAt_iff`: a draw falls on a candidate between the sum in front of it and the sum behind it.
  So the draws that fall on it are an interval as long as its part of the total (`Fair`).
* `drawOf_alone`: a single candidate of constant weight is what a draw would fall on. This one is
  about doubles.
-/

namespace VoxelEdit.Weighted

/-! ## A single candidate -/

section

variable {R : Type} [OfNat R 0] [Add R] [Mul R] [LE R] [LT R] [DecidableLE R] [DecidableLT R]

/-- **A single candidate is chosen by every draw**, if it has enough weight. -/
theorem index?_alone {least w : R} (hzero : 0 + w = w) (hpos : least ≤ w → 0 < w) (unit : R) :
    index? least [w] unit = if least ≤ w then some 0 else none := by
  unfold index?
  dsimp only [List.foldl_cons, List.foldl_nil]
  rw [hzero]
  split
  · rename_i hle
    have hlast : last? [w] = some 0 := by simp [last?, hpos hle]
    -- a draw that does not reach the candidate falls on it as the last one
    rw [hlast, reach?, reach?]
    split <;> rfl
  · rfl

end

section Exact

/-! ## Sums -/

variable {K : Type} [Field K] {weights : List K} {least draw unit w : K} {i : Nat}

/-- The sum of the weights in front of a candidate. -/
def before (weights : List K) (i : Nat) : K := (weights.take i).sum

theorem before_zero (weights : List K) : before weights 0 = 0 := rfl

theorem before_succ (h : i < weights.length) :
    before weights (i + 1) = before weights i + weights[i] := List.sum_take_succ weights i h

theorem before_cons_succ (w : K) (weights : List K) (i : Nat) :
    before (w :: weights) (i + 1) = w + before weights i := List.sum_cons

variable [LinearOrder K]

theorem index?_of_lt (hlt : weights.sum < least) (unit : K) : index? least weights unit = none := by
  unfold index?
  dsimp only
  rw [← List.sum_eq_foldl]
  exact if_neg (not_le.2 hlt)

/-! ## The first candidate -/

/-- The first candidate with a weight at which the sum of the weights reaches `draw`. -/
def FirstAt (draw : K) (weights : List K) (i : Nat) : Prop :=
  ∃ h : i < weights.length, 0 < weights[i] ∧ draw ≤ before weights (i + 1) ∧
    ∀ j (hj : j < i), 0 < weights[j] → before weights (j + 1) < draw

theorem firstAt_zero : FirstAt draw (w :: weights) 0 ↔ 0 < w ∧ draw ≤ w := by
  have hsum : before (w :: weights) (0 + 1) = w := by
    rw [before_cons_succ, before_zero, add_zero]
  constructor
  · rintro ⟨h, hw, hdraw, -⟩
    exact ⟨hw, hsum ▸ hdraw⟩
  · rintro ⟨hw, hdraw⟩
    exact ⟨Nat.succ_pos _, hw, hsum.symm ▸ hdraw, fun j hj => absurd hj (Nat.not_lt_zero j)⟩

variable [IsStrictOrderedRing K]

theorem before_nonneg (hweights : ∀ w ∈ weights, 0 ≤ w) (i : Nat) : 0 ≤ before weights i :=
  List.sum_nonneg fun w hw => hweights w (List.mem_of_mem_take hw)

theorem before_le_sum (hweights : ∀ w ∈ weights, 0 ≤ w) (i : Nat) :
    before weights i ≤ weights.sum := by
  have hrest : 0 ≤ (weights.drop i).sum :=
    List.sum_nonneg fun w hw => hweights w (List.mem_of_mem_drop hw)
  have hsum : before weights i + (weights.drop i).sum = weights.sum := List.sum_take_add_sum_drop weights i
  linarith

theorem firstAt_succ : FirstAt draw (w :: weights) (i + 1) ↔
    (0 < w → w < draw) ∧ FirstAt (draw - w) weights i := by
  constructor
  · rintro ⟨h, hw, hdraw, hfirst⟩
    rw [before_cons_succ] at hdraw
    refine ⟨fun hpos => ?_, Nat.lt_of_succ_lt_succ h, hw, by linarith, fun j hj hpos => ?_⟩
    · have hlt := hfirst 0 (Nat.succ_pos i) hpos
      rwa [before_cons_succ, before_zero, add_zero] at hlt
    · have hlt := hfirst (j + 1) (Nat.succ_lt_succ hj) hpos
      rw [before_cons_succ] at hlt
      linarith
  · rintro ⟨hw, h, hi, hdraw, hfirst⟩
    refine ⟨Nat.succ_lt_succ h, hi, ?_, fun j hj hpos => ?_⟩
    · rw [before_cons_succ]
      linarith
    · cases j with
      | zero =>
        rw [before_cons_succ, before_zero, add_zero]
        exact hw hpos
      | succ j =>
        have hlt := hfirst j (Nat.lt_of_succ_lt_succ hj) hpos
        rw [before_cons_succ]
        linarith

/-- **The search finds the first candidate**, counted from `start`, for what is left of the draw. -/
theorem reach?_eq_some_iff {sum : K} {start k : Nat} : reach? draw weights sum start = some k ↔
    ∃ i, k = start + i ∧ FirstAt (draw - sum) weights i := by
  induction weights generalizing sum start with
  | nil => exact ⟨nofun, fun ⟨_, _, h, _⟩ => absurd h (Nat.not_lt_zero _)⟩
  | cons w weights ih =>
    rw [reach?]
    split
    · -- the search ends here, and no later candidate is the first
      rename_i hhere
      have hzero : FirstAt (draw - sum) (w :: weights) 0 :=
        firstAt_zero.2 ⟨hhere.1, by linarith [hhere.2]⟩
      constructor
      · rintro ⟨⟩
        exact ⟨0, rfl, hzero⟩
      · rintro ⟨i, rfl, hi⟩
        cases i with
        | zero => rfl
        | succ i =>
          have hlt := (firstAt_succ.1 hi).1 hhere.1
          linarith [hhere.2]
    · rename_i hnot
      have hskip (hw : 0 < w) : w < draw - sum := by
        by_contra hle
        exact hnot ⟨hw, by linarith⟩
      rw [ih]
      constructor
      · rintro ⟨i, rfl, hi⟩
        refine ⟨i + 1, by omega, firstAt_succ.2 ⟨hskip, ?_⟩⟩
        rwa [sub_sub]
      · rintro ⟨i, rfl, hi⟩
        cases i with
        | zero =>
          obtain ⟨hw, hle⟩ := firstAt_zero.1 hi
          exact absurd (hskip hw) (not_lt.2 hle)
        | succ i =>
          refine ⟨i, by omega, ?_⟩
          rw [← sub_sub]
          exact (firstAt_succ.1 hi).2

/-- **A draw that is not above a positive total falls on a candidate.** -/
theorem exists_firstAt (hweights : ∀ w ∈ weights, 0 ≤ w) (hpos : 0 < weights.sum)
    (hdraw : draw ≤ weights.sum) : ∃ i, FirstAt draw weights i := by
  induction weights generalizing draw with
  | nil => exact absurd hpos (lt_irrefl 0)
  | cons w weights ih =>
    obtain ⟨hw, hrest⟩ := List.forall_mem_cons.1 hweights
    rw [List.sum_cons] at hpos hdraw
    by_cases hhere : 0 < w ∧ draw ≤ w
    · exact ⟨0, firstAt_zero.2 hhere⟩
    · have hskip (hw : 0 < w) : w < draw := lt_of_not_ge fun hle => hhere ⟨hw, hle⟩
      have hmore : 0 < weights.sum := by
        refine lt_of_le_of_ne (List.sum_nonneg hrest) fun hzero => ?_
        rw [← hzero, add_zero] at hpos hdraw
        exact hhere ⟨hpos, hdraw⟩
      have hleft : draw - w ≤ weights.sum := by linarith
      obtain ⟨i, hi⟩ := ih hrest hmore hleft
      exact ⟨i + 1, firstAt_succ.2 ⟨hskip, hi⟩⟩

/-- **The candidate of a draw is the first one**, and never the last for want of another. -/
theorem index?_eq_some_iff (hweights : ∀ w ∈ weights, 0 ≤ w) (hleast : 0 < least)
    (hle : least ≤ weights.sum) (hunit : unit ≤ 1) :
    index? least weights unit = some i ↔ FirstAt (unit * weights.sum) weights i := by
  have hpos : 0 < weights.sum := hleast.trans_le hle
  have hdraw : unit * weights.sum ≤ weights.sum := mul_le_of_le_one_left hpos.le hunit
  have hreach (k : Nat) : reach? (unit * weights.sum) weights 0 0 = some k ↔
      FirstAt (unit * weights.sum) weights k := by
    rw [reach?_eq_some_iff, sub_zero]
    simp only [Nat.zero_add, exists_eq_left']
  obtain ⟨k, hk⟩ := exists_firstAt hweights hpos hdraw
  unfold index?
  dsimp only
  rw [← List.sum_eq_foldl, if_pos hle, (hreach k).2 hk, ← (hreach i), (hreach k).2 hk]
  rfl

/-! ## Intervals -/

/-- All weights in front of a candidate are zero, or their sum is below the draw. -/
theorem skipped_iff (hweights : ∀ w ∈ weights, 0 ≤ w) (hi : i ≤ weights.length) :
    (∀ j (hj : j < i), 0 < weights[j] → before weights (j + 1) < draw) ↔
      before weights i = 0 ∨ before weights i < draw := by
  induction i with
  | zero => exact ⟨fun _ => .inl rfl, fun _ j hj => absurd hj (Nat.not_lt_zero j)⟩
  | succ i ih =>
    have hlt : i < weights.length := hi
    have hnonneg := before_nonneg hweights i
    have hsplit : (∀ j (hj : j < i + 1), 0 < weights[j] → before weights (j + 1) < draw) ↔
        (∀ j (hj : j < i), 0 < weights[j] → before weights (j + 1) < draw) ∧
          (0 < weights[i] → before weights (i + 1) < draw) := by
      constructor
      · exact fun h => ⟨fun j hj => h j (Nat.lt_succ_of_lt hj), h i (Nat.lt_succ_self i)⟩
      · rintro ⟨h, hlast⟩ j hj
        rcases Nat.lt_succ_iff_lt_or_eq.1 hj with hj | rfl
        · exact h j hj
        · exact hlast
    rw [hsplit, ih hlt.le, before_succ hlt]
    rcases (hweights _ (List.getElem_mem hlt)).eq_or_lt with hzero | hpos
    · rw [← hzero, add_zero]
      exact and_iff_left fun h => absurd h (lt_irrefl 0)
    · constructor
      · exact fun h => .inr (h.2 hpos)
      · rintro (hzero | hlt)
        · linarith
        · exact ⟨.inr (by linarith), fun _ => hlt⟩

/-- **A draw falls on a candidate between the sum in front of it and the sum behind it**, the sum in
front left out unless it is zero. -/
theorem firstAt_iff (hweights : ∀ w ∈ weights, 0 ≤ w) : FirstAt draw weights i ↔
    ∃ h : i < weights.length, 0 < weights[i] ∧ (before weights i = 0 ∨ before weights i < draw) ∧
      draw ≤ before weights (i + 1) := by
  constructor
  · rintro ⟨h, hpos, hdraw, hfirst⟩
    exact ⟨h, hpos, (skipped_iff hweights h.le).1 hfirst, hdraw⟩
  · rintro ⟨h, hpos, hskipped, hdraw⟩
    exact ⟨h, hpos, hdraw, (skipped_iff hweights h.le).2 hskipped⟩

/-- The draws that fall on a candidate, as parts of the total. -/
def units (least : K) (weights : List K) (i : Nat) : Set K :=
  {unit | unit ∈ Set.Ico 0 1 ∧ index? least weights unit = some i}

theorem mem_units_iff (hweights : ∀ w ∈ weights, 0 ≤ w) (hleast : 0 < least)
    (hle : least ≤ weights.sum) (hi : i < weights.length) : unit ∈ units least weights i ↔
      unit ∈ Set.Ico 0 1 ∧ 0 < weights[i] ∧
        (before weights i = 0 ∨ before weights i / weights.sum < unit) ∧
          unit ≤ before weights (i + 1) / weights.sum := by
  have hpos : 0 < weights.sum := hleast.trans_le hle
  refine and_congr_right fun hunit => ?_
  rw [index?_eq_some_iff hweights hleast hle hunit.2.le, firstAt_iff hweights, div_lt_iff₀ hpos,
    le_div_iff₀ hpos]
  exact exists_prop_of_true hi

/-- A set is an interval between two ends, with them or without. -/
def Spans (s : Set K) (a b : K) : Prop := Set.Ioo a b ⊆ s ∧ s ⊆ Set.Icc a b

theorem spans_units (hweights : ∀ w ∈ weights, 0 ≤ w) (hleast : 0 < least)
    (hle : least ≤ weights.sum) (hi : i < weights.length) : Spans (units least weights i)
      (before weights i / weights.sum) (before weights i / weights.sum + weights[i] / weights.sum) := by
  have hpos : 0 < weights.sum := hleast.trans_le hle
  have hlow : 0 ≤ before weights i / weights.sum := div_nonneg (before_nonneg hweights i) hpos.le
  have hhigh : before weights (i + 1) / weights.sum ≤ 1 :=
    (div_le_one hpos).2 (before_le_sum hweights (i + 1))
  rw [← add_div, ← before_succ hi]
  constructor
  · rintro unit ⟨h1, h2⟩
    refine (mem_units_iff hweights hleast hle hi).2 ⟨⟨by linarith, by linarith⟩, ?_, .inr h1, h2.le⟩
    have hlt := (div_lt_div_iff_of_pos_right hpos).1 (h1.trans h2)
    rw [before_succ hi] at hlt
    linarith
  · intro unit hunit
    obtain ⟨⟨h0, -⟩, -, hskipped, h2⟩ := (mem_units_iff hweights hleast hle hi).1 hunit
    refine ⟨?_, h2⟩
    rcases hskipped with hzero | hlt
    · rwa [hzero, zero_div]
    · exact hlt.le

/-- How the draws are shared out: each candidate has an interval as long as its part of the total,
a candidate without a weight has no draw, and every draw falls on one candidate. -/
structure Fair (least : K) (weights : List K) : Prop where
  /-- The intervals lie side by side, in the order of the candidates. -/
  spans : ∀ i (h : i < weights.length), Spans (units least weights i)
    (before weights i / weights.sum) (before weights i / weights.sum + weights[i] / weights.sum)
  idle : ∀ i (h : i < weights.length), weights[i] = 0 → units least weights i = ∅
  cover : ⋃ i, units least weights i = Set.Ico 0 1
  disjoint : Pairwise fun i j => Disjoint (units least weights i) (units least weights j)

theorem fair (hweights : ∀ w ∈ weights, 0 ≤ w) (hleast : 0 < least) (hle : least ≤ weights.sum) :
    Fair least weights where
  spans i hi := spans_units hweights hleast hle hi
  idle i hi hzero := by
    refine Set.eq_empty_of_forall_notMem fun unit hunit => ?_
    have hpos := ((mem_units_iff hweights hleast hle hi).1 hunit).2.1
    exact absurd hzero hpos.ne'
  cover := by
    have hpos : 0 < weights.sum := hleast.trans_le hle
    refine Set.Subset.antisymm (Set.iUnion_subset fun i unit hunit => hunit.1) fun unit hunit => ?_
    obtain ⟨i, hi⟩ := exists_firstAt hweights hpos (mul_le_of_le_one_left hpos.le hunit.2.le)
    exact Set.mem_iUnion.2 ⟨i, hunit, (index?_eq_some_iff hweights hleast hle hunit.2.le).2 hi⟩
  disjoint i j hij := Set.disjoint_left.2 fun unit hi hj =>
    hij (Option.some.inj (hi.2.symm.trans hj.2))

end Exact

end VoxelEdit.Weighted

namespace VoxelEdit

/-! ## Doubles -/

namespace Doubles

open Float.Model Float.Model.UnpackedFloat

/-- What is above zero has no minus sign, and adding it to zero keeps it. -/
theorem zero_add_of_pos {x : Float} (hx : x > 0.0) : 0 + x = x := by
  have hlt : (UnpackedFloat.zero .positive).lt x.toModel.unpack = true := of_decide_eq_true hx
  have hadd : UnpackedFloat.add .binary64 (.zero .positive) x.toModel.unpack = x.toModel.unpack := by
    cases hparts : x.toModel.unpack with
    | notANumber | infinity s | finite s m e h => rfl
    | zero s =>
      rw [hparts] at hlt
      exact nomatch hlt
  show Float.ofModel (pack (UnpackedFloat.add .binary64 (.zero .positive) x.toModel.unpack)) = x
  rw [hadd]
  exact Float.ofBits_toBits x

/-- The least total is above zero, and so is what is not below it. -/
theorem pos_of_minTotal_le {x : Float} (hx : Pattern.minTotal ≤ x) : x > 0.0 := by
  have hle : Pattern.minTotal.toModel.unpack.le x.toModel.unpack = true := of_decide_eq_true hx
  have hlt : (UnpackedFloat.zero .positive).lt x.toModel.unpack = true := by
    cases hparts : x.toModel.unpack with
    | notANumber | zero s =>
      rw [hparts] at hle
      exact nomatch hle
    | infinity s | finite s m e h =>
      rw [hparts] at hle
      cases s with
      | positive => rfl
      | negative => exact nomatch hle
  exact decide_eq_true hlt

end Doubles

namespace Pattern

open Weighted

/-- **A single term of constant weight is what a draw would fall on**, whatever is drawn. -/
theorem drawOf_alone {R : Type} (scene : Scene R) (vars : Variables) (w : Float) (b : Descriptor)
    (d : Draws) : (drawOf scene vars [⟨.constant w, b⟩] d).1 =
      .ok (if w ≥ minTotal then some ⟨.constant w, b⟩ else none) := by
  have hindex : index? minTotal [if w > 0.0 then w else 0.0] d.next.1 =
      if w ≥ minTotal then some 0 else none := by
    split
    · rename_i hpos
      exact index?_alone (Doubles.zero_add_of_pos hpos) (fun _ => hpos) _
    · rename_i hnot
      have hlow : ¬ minTotal ≤ (0 : Float) + 0.0 := by decide
      rw [if_neg fun hle => hnot (Doubles.pos_of_minTotal_le hle)]
      unfold index?
      exact if_neg hlow
  show Except.ok (Option.bind (index? minTotal [if w > 0.0 then w else 0.0] d.next.1) _) = _
  rw [hindex]
  split <;> rfl

/-- **A draw is fair, and it never falls through.** With exact weights and an exact draw, nothing is
chosen if the total is too small. Otherwise it is the first candidate with a weight at which the sum
reaches the draw, and the draws that fall on a candidate are an interval as long as its part of the
total. A single term of constant weight is picked as if there had been a draw. -/
theorem draw_fair {K : Type} [Field K] [LinearOrder K] [IsStrictOrderedRing K] {least : K}
    {weights : List K} (hleast : 0 < least) (hweights : ∀ w ∈ weights, 0 ≤ w) :
    (weights.sum < least → ∀ unit, index? least weights unit = none) ∧
    (least ≤ weights.sum →
      (∀ unit ∈ Set.Ico (0 : K) 1, ∃ i, index? least weights unit = some i ∧
        FirstAt (unit * weights.sum) weights i) ∧
      Fair least weights) ∧
    (∀ w unit : K, index? least [max w 0] unit = if least ≤ w then some 0 else none) ∧
    ∀ {R : Type} (scene : Scene R) (vars : Variables) (w : Float) (b : Descriptor) (s : SampleState),
      (pick scene vars [⟨.constant w, b⟩] s).1 = (drawOf scene vars [⟨.constant w, b⟩] s.draws).1 := by
  refine ⟨fun hlt unit => index?_of_lt hlt unit, fun hle => ⟨fun unit hunit => ?_, ?_⟩, ?_, ?_⟩
  · have hdraw : unit * weights.sum ≤ weights.sum :=
      mul_le_of_le_one_left (hleast.trans_le hle).le hunit.2.le
    obtain ⟨i, hi⟩ := exists_firstAt hweights (hleast.trans_le hle) hdraw
    exact ⟨i, (index?_eq_some_iff hweights hleast hle hunit.2.le).2 hi, hi⟩
  · exact fair hweights hleast hle
  · intro w unit
    rw [index?_alone (zero_add _) fun hle => hleast.trans_le hle]
    have hiff : least ≤ max w 0 ↔ least ≤ w := by
      rw [le_max_iff]
      exact or_iff_left (not_le.2 hleast)
    simp only [hiff]
  · intro R scene vars w b s
    have hpick := (Prod.ext_iff.1 (pick_eq scene vars [⟨.constant w, b⟩] s)).1
    rw [drawOf_alone]
    exact hpick

/-- Of four candidates, the outer ones without a weight: two thirds of the draws fall on the third. -/
theorem draw_fair_thirds : (0 : ℚ) < 1 / 100 ∧ (∀ w ∈ [0, 1, 2, 0], (0 : ℚ) ≤ w) ∧
    Spans (units (1 / 100 : ℚ) [0, 1, 2, 0] 2) (1 / 3) 1 ∧ units (1 / 100 : ℚ) [0, 1, 2, 0] 3 = ∅ := by
  have hleast : (0 : ℚ) < 1 / 100 := by norm_num
  have hweights : ∀ w ∈ [0, 1, 2, 0], (0 : ℚ) ≤ w := by simp
  have hfair := ((draw_fair hleast hweights).2.1 (by norm_num)).2
  have hspans := hfair.spans 2 (by decide)
  have hlow : before ([0, 1, 2, 0] : List ℚ) 2 / [0, 1, 2, (0 : ℚ)].sum = 1 / 3 := by
    norm_num [before]
  have hpart : [0, 1, 2, (0 : ℚ)][2] / [0, 1, 2, (0 : ℚ)].sum = 2 / 3 := by norm_num
  rw [hlow, hpart] at hspans
  exact ⟨hleast, hweights, by norm_num at hspans ⊢; exact hspans, hfair.idle 3 (by decide) rfl⟩

end Pattern

end VoxelEdit
