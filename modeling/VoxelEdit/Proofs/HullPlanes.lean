import Mathlib.Data.List.Perm.Subperm
import VoxelEdit.Proofs.CrossProduct
import VoxelEdit.Proofs.Separation

/-!
# The planes of a hull

Bringing a half-space to lowest terms keeps its sides (`excess_reduced`), and a plane contributes
a half-space if no points lie on both of its sides (`supporting?_eq_some`, `through_cuts`).

* `Hull.mem_support_fold`: what a run over pairs or triples collects.
* `Hull.exists_pair`, `Hull.exists_triple`: no two or three points are left out, whatever their
  order.
-/

namespace VoxelEdit

namespace HalfSpace

variable {points : List Pos} {planes : List HalfSpace} {h s : HalfSpace} {p q : Pos}

/-- Lowest terms keep the sign of the excess. -/
theorem excess_reduced (n : Pos) (o : ℤ) :
    ∃ g : ℤ, 0 < g ∧ ∀ q, n.dot q - o = g * (reduced n o).excess q := by
  unfold reduced
  simp only
  set g : ℤ := ((Int.gcd (Int.gcd (Int.gcd n.x n.y) n.z) o : ℕ) : ℤ) with hg
  by_cases h : g > 1
  · rw [if_pos h]
    refine ⟨g, by omega, fun q => ?_⟩
    -- the divisor is common to all four, so that no division rounds
    have hxyz : g ∣ Int.gcd (Int.gcd n.x n.y) n.z := Int.gcd_dvd_left ..
    have hxy : g ∣ Int.gcd n.x n.y := hxyz.trans (Int.gcd_dvd_left ..)
    have hx : g * (n.x / g) = n.x := Int.mul_ediv_cancel' (hxy.trans (Int.gcd_dvd_left ..))
    have hy : g * (n.y / g) = n.y := Int.mul_ediv_cancel' (hxy.trans (Int.gcd_dvd_right ..))
    have hz : g * (n.z / g) = n.z := Int.mul_ediv_cancel' (hxyz.trans (Int.gcd_dvd_right ..))
    have ho : g * (o / g) = o := Int.mul_ediv_cancel' (Int.gcd_dvd_right ..)
    simp only [excess, Pos.dot]
    linear_combination -(q.x * hx) - q.y * hy - q.z * hz + ho
  · rw [if_neg h]
    exact ⟨1, one_pos, fun q => (one_mul _).symm⟩

theorem reduced_excess_nonpos (n : Pos) (o : ℤ) (q : Pos) :
    (reduced n o).excess q ≤ 0 ↔ n.dot q ≤ o := by
  obtain ⟨g, hg, h⟩ := excess_reduced n o
  have hq := h q
  constructor
  · intro h0
    have := mul_nonpos_of_nonneg_of_nonpos hg.le h0
    omega
  · intro h0
    exact nonpos_of_mul_nonpos_right (show g * _ ≤ 0 by omega) hg

theorem reduced_excess_nonneg (n : Pos) (o : ℤ) (q : Pos) :
    0 ≤ (reduced n o).excess q ↔ o ≤ n.dot q := by
  obtain ⟨g, hg, h⟩ := excess_reduced n o
  have hq := h q
  constructor
  · intro h0
    have := mul_nonneg hg.le h0
    omega
  · intro h0
    exact nonneg_of_mul_nonneg_right (show 0 ≤ g * _ by omega) hg

theorem reduced_excess_eq_zero (n : Pos) (o : ℤ) (q : Pos) :
    (reduced n o).excess q = 0 ↔ n.dot q = o := by
  have h1 := reduced_excess_nonpos n o q
  have h2 := reduced_excess_nonneg n o q
  omega

theorem through_excess_eq_zero (n a q : Pos) :
    (through n a).excess q = 0 ↔ n.dot (q - a) = 0 := by
  rw [through, reduced_excess_eq_zero, Pos.dot_sub]
  omega

/-! ## Closing pairs -/

theorem closing_holds (hs : s ∈ closing h) (hq : h.excess q = 0) : s.excess q ≤ 0 := by
  rcases List.mem_pair.1 hs with rfl | rfl
  · exact hq.le
  · rw [excess_flipped, hq, neg_zero]

theorem closing_cuts (hp : h.excess p ≠ 0) : ∃ s ∈ closing h, 0 < s.excess p := by
  rcases lt_or_gt_of_ne hp with hlt | hgt
  · refine ⟨h.flipped, by simp [closing], ?_⟩
    rw [excess_flipped]
    omega
  · exact ⟨h, by simp [closing], hgt⟩

/-! ## Supporting half-spaces -/

/-- A supporting half-space holds all points. -/
theorem supporting?_eq_some (hs : supporting? points h = some s) (hq : q ∈ points) :
    s.excess q ≤ 0 := by
  unfold supporting? at hs
  simp only at hs
  split at hs
  · exact nomatch hs
  rename_i hside
  obtain rfl := Option.some.inj hs
  simp only [Bool.and_eq_true, List.any_eq_true, decide_eq_true_eq, not_and, not_exists] at hside
  split
  · rename_i habove
    simp only [List.any_eq_true, decide_eq_true_eq] at habove
    have hbelow := hside habove q hq
    rw [excess_flipped]
    unfold excess
    omega
  · rename_i habove
    simp only [List.any_eq_true, decide_eq_true_eq, not_exists, not_and] at habove
    have hq := habove q hq
    unfold excess
    omega

theorem supporting?_of_nonpos (hside : ∀ q ∈ points, h.excess q ≤ 0) :
    supporting? points h = some h := by
  have habove : (points.any fun q => h.normal.dot q - h.offset > 0) = false := by
    rw [List.any_eq_false]
    intro q hq
    rw [decide_eq_true_eq]
    have := hside q hq
    unfold excess at this
    omega
  unfold supporting?
  simp only [habove, Bool.false_and, Bool.false_eq_true, if_false]

/-- If all points lie on the plane it is not flipped, so one of them must not. -/
theorem supporting?_of_nonneg (hside : ∀ q ∈ points, 0 ≤ h.excess q)
    (hne : ∃ q ∈ points, h.excess q ≠ 0) : supporting? points h = some h.flipped := by
  have habove : (points.any fun q => h.normal.dot q - h.offset > 0) = true := by
    obtain ⟨q, hq, hq0⟩ := hne
    rw [List.any_eq_true]
    refine ⟨q, hq, ?_⟩
    rw [decide_eq_true_eq]
    have := hside q hq
    unfold excess at this hq0
    omega
  have hbelow : (points.any fun q => h.normal.dot q - h.offset < 0) = false := by
    rw [List.any_eq_false]
    intro q hq
    rw [decide_eq_true_eq]
    have := hside q hq
    unfold excess at this
    omega
  unfold supporting?
  simp only [habove, hbelow, Bool.and_false, Bool.false_eq_true, if_false, if_true]

/-- A plane below `p` contributes if no point lies above it. -/
theorem reduced_cuts_above {n : Pos} {o : ℤ} (hall : ∀ q ∈ points, n.dot q ≤ o)
    (hp : o < n.dot p) : ∃ s, supporting? points (reduced n o) = some s ∧ 0 < s.excess p := by
  refine ⟨_, supporting?_of_nonpos fun q hq => ?_, ?_⟩
  · exact (reduced_excess_nonpos n o q).2 (hall q hq)
  · have h := reduced_excess_nonpos n o p
    omega

/-- A plane above `p` contributes if no point lies below it and not all lie on it. -/
theorem reduced_cuts_below {n : Pos} {o : ℤ} (hall : ∀ q ∈ points, o ≤ n.dot q)
    (hne : ∃ q ∈ points, n.dot q ≠ o) (hp : n.dot p < o) :
    ∃ s, supporting? points (reduced n o) = some s ∧ 0 < s.excess p := by
  obtain ⟨q₀, hq₀, hne⟩ := hne
  refine ⟨_, supporting?_of_nonneg (fun q hq => ?_) ⟨q₀, hq₀, ?_⟩, ?_⟩
  · exact (reduced_excess_nonneg n o q).2 (hall q hq)
  · exact mt (reduced_excess_eq_zero n o q₀).1 hne
  · have h := reduced_excess_nonneg n o p
    rw [excess_flipped]
    omega

/-- **A plane that separates contributes.** The points lie on one side of a plane and `p` on the
other, if on these the plane is proportional to a half-space that separates; and one of the
points must not lie on the plane. -/
theorem through_cuts {f : HalfSpace} {n a : Pos} (hf : f.Separates points p)
    (hprop : ∀ q ∈ points, n.dot (p - a) * f.excess q = f.excess p * n.dot (q - a))
    (hp : n.dot (p - a) ≠ 0) (hne : ∃ q ∈ points, n.dot (q - a) ≠ 0) :
    ∃ s, supporting? points (through n a) = some s ∧ 0 < s.excess p := by
  unfold through
  rcases lt_or_gt_of_ne hp with hlt | hgt
  · -- `p` lies below, so all points lie above
    refine reduced_cuts_below (fun q hq => ?_) ?_ ?_
    · have h1 : 0 ≤ n.dot (p - a) * f.excess q :=
        mul_nonneg_of_nonpos_of_nonpos hlt.le (hf.holds q hq)
      rw [hprop q hq] at h1
      have h2 := nonneg_of_mul_nonneg_right h1 hf.past
      rw [Pos.dot_sub] at h2
      omega
    · obtain ⟨q, hq, hq0⟩ := hne
      rw [Pos.dot_sub] at hq0
      exact ⟨q, hq, fun h0 => hq0 (sub_eq_zero.2 h0)⟩
    · rw [Pos.dot_sub] at hlt
      omega
  · -- `p` lies above, so all points lie below
    refine reduced_cuts_above (fun q hq => ?_) ?_
    · have h1 : n.dot (p - a) * f.excess q ≤ 0 :=
        mul_nonpos_of_nonneg_of_nonpos hgt.le (hf.holds q hq)
      rw [hprop q hq] at h1
      have h2 := nonpos_of_mul_nonpos_right h1 hf.past
      rw [Pos.dot_sub] at h2
      omega
    · rw [Pos.dot_sub] at hgt
      omega

theorem mem_support : s ∈ support points planes h ↔
    s ∈ planes ∨ supporting? points h = some s := by
  unfold support
  cases hs : supporting? points h with
  | none => simp
  | some t =>
    simp only
    by_cases ht : planes.contains t = true
    · rw [if_pos ht]
      have hmem : t ∈ planes := by simpa using ht
      constructor
      · exact Or.inl
      · rintro (h | h)
        · exact h
        · rw [← Option.some.inj h]; exact hmem
    · rw [if_neg ht, List.mem_append, List.mem_singleton, Option.some.injEq, eq_comm]

end HalfSpace

namespace Hull

open HalfSpace

variable {α : Type}

/-- What a run over items collects: what it started with, and the supporting half-spaces of the
planes of the items that it does not skip. -/
theorem mem_support_fold {points : List Pos} {s : HalfSpace} (skip : α → Prop)
    [DecidablePred skip] (plane : α → HalfSpace) (items : List α) (planes : List HalfSpace) :
    s ∈ items.foldl (fun planes a => if skip a then planes else support points planes (plane a))
        planes ↔
      s ∈ planes ∨ ∃ a ∈ items, ¬ skip a ∧ supporting? points (plane a) = some s := by
  induction items generalizing planes with
  | nil => simp
  | cons a items ih =>
    rw [List.foldl_cons, ih]
    by_cases ha : skip a
    · simp [ha]
    · rw [if_neg ha, mem_support]
      simp [ha, or_assoc]

theorem mem_pairs {a b : α} {l : List α} : (a, b) ∈ pairs l ↔ [a, b].Sublist l := by
  induction l with
  | nil => simp [pairs]
  | cons c l ih =>
    rw [pairs, List.mem_append, List.mem_map, ih, List.sublist_cons_iff]
    constructor
    · rintro (⟨d, hd, heq⟩ | h)
      · obtain ⟨rfl, rfl⟩ := Prod.mk.inj heq
        exact .inr ⟨[d], rfl, List.singleton_sublist.2 hd⟩
      · exact .inl h
    · rintro (h | ⟨r, heq, hr⟩)
      · exact .inr h
      · obtain ⟨rfl, rfl⟩ := List.cons.inj heq
        exact .inl ⟨b, List.singleton_sublist.1 hr, rfl⟩

theorem mem_triples {a b c : α} {l : List α} :
    (a, b, c) ∈ triples l ↔ [a, b, c].Sublist l := by
  induction l with
  | nil => simp [triples]
  | cons d l ih =>
    rw [triples, List.mem_append, List.mem_map, ih, List.sublist_cons_iff]
    constructor
    · rintro (⟨⟨x, y⟩, hxy, heq⟩ | h)
      · obtain ⟨rfl, heq'⟩ := Prod.mk.inj heq
        obtain ⟨rfl, rfl⟩ := Prod.mk.inj heq'
        exact .inr ⟨[x, y], rfl, mem_pairs.1 hxy⟩
      · exact .inl h
    · rintro (h | ⟨r, heq, hr⟩)
      · exact .inr h
      · obtain ⟨rfl, rfl⟩ := List.cons.inj heq
        exact .inl ⟨(b, c), mem_pairs.2 hr, rfl⟩

/-- Two different points are a pair in one order or the other. -/
theorem exists_pair {a b : α} {l : List α} (ha : a ∈ l) (hb : b ∈ l) (hab : a ≠ b) :
    ∃ a' b', (a', b') ∈ pairs l ∧ [a', b'].Perm [a, b] := by
  have hsub : [a, b].Subperm l :=
    List.subperm_of_subset (by simp [hab]) (by simp [ha, hb])
  obtain ⟨r, hperm, hr⟩ := hsub
  have hlen := hperm.length_eq
  match r, hlen with
  | [a', b'], _ => exact ⟨a', b', mem_pairs.2 hr, hperm⟩

theorem perm_pair {a b a' b' : α} (h : [a', b'].Perm [a, b]) :
    (a' = a ∧ b' = b) ∨ (a' = b ∧ b' = a) := by
  rcases List.mem_pair.1 (h.mem_iff.1 (List.mem_cons_self ..)) with rfl | rfl
  · exact .inl ⟨rfl, List.perm_singleton.1 h.cons_inv |> List.singleton_inj.1⟩
  · have h' := (h.trans (.swap a' a [])).cons_inv
    exact .inr ⟨rfl, List.perm_singleton.1 h' |> List.singleton_inj.1⟩

theorem perm_triple {a b c a' b' c' : α} (h : [a', b', c'].Perm [a, b, c]) :
    (a' = a ∧ ((b' = b ∧ c' = c) ∨ (b' = c ∧ c' = b))) ∨
      (a' = b ∧ ((b' = a ∧ c' = c) ∨ (b' = c ∧ c' = a))) ∨
      (a' = c ∧ ((b' = a ∧ c' = b) ∨ (b' = b ∧ c' = a))) := by
  have hmem : a' ∈ [a, b, c] := h.mem_iff.1 (List.mem_cons_self ..)
  simp only [List.mem_cons, List.not_mem_nil, or_false] at hmem
  rcases hmem with rfl | rfl | rfl
  · exact .inl ⟨rfl, perm_pair h.cons_inv⟩
  · exact .inr (.inl ⟨rfl, perm_pair (h.trans (.swap a' a [c])).cons_inv⟩)
  · have hback : ([a, b] ++ [a']).Perm ([a'] ++ [a, b]) := List.perm_append_comm
    exact .inr (.inr ⟨rfl, perm_pair (h.trans hback).cons_inv⟩)

/-- Three different points are a triple in some order. -/
theorem exists_triple {a b c : α} {l : List α} (ha : a ∈ l) (hb : b ∈ l) (hc : c ∈ l)
    (hab : a ≠ b) (hac : a ≠ c) (hbc : b ≠ c) :
    ∃ a' b' c', (a', b', c') ∈ triples l ∧ [a', b', c'].Perm [a, b, c] := by
  have hsub : [a, b, c].Subperm l :=
    List.subperm_of_subset (by simp [hab, hac, hbc]) (by simp [ha, hb, hc])
  obtain ⟨r, hperm, hr⟩ := hsub
  have hlen := hperm.length_eq
  match r, hlen with
  | [a', b', c'], _ => exact ⟨a', b', c', mem_triples.2 hr, hperm⟩

end Hull

end VoxelEdit
