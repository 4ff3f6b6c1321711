import VoxelEdit.Proofs.FixedWidth
import VoxelEdit.Proofs.OutlineSides
import VoxelEdit.Region.Width

/-!
# Outlines with numbers of fixed width

The tests of an edge compute two products of coordinates and the area that is their difference. An edge
is measured if 64 bits hold these three.

* `Polygon.onSegment?_eq`, `Polygon.crosses?_eq`: at an edge that is measured the tests answer as with
  exact numbers, and at any other the program stops.
* `Polygon.encloses?_eq_none_iff`: **an outline is not answered just if some edge is not measured and the
  column is on none of the edges before it.**
* `Polygon.encloses?_attains`: what is answered is the answer with exact numbers, and in a square whose
  area fits every edge is measured (`Polygon.measured_of_inSquare`).
-/

namespace VoxelEdit

open Number

/-- No farther apart than `D` along either axis. -/
structure Column.Close (D : ℤ) (a b : Column) : Prop where
  x : |a.x - b.x| ≤ D
  z : |a.z - b.z| ≤ D

/-- Columns in a square with sides of length `D`. -/
def InSquare (D : ℤ) (cs : List Column) : Prop := ∀ a ∈ cs, ∀ b ∈ cs, a.Close D b

theorem InSquare.mono {D D' : ℤ} {cs : List Column} (h : InSquare D cs) (hD : D ≤ D') :
    InSquare D' cs := by
  intro a ha b hb
  obtain ⟨hx, hz⟩ := h a ha b hb
  exact ⟨hx.trans hD, hz.trans hD⟩

theorem InSquare.edge {D : ℤ} {points : List Column} {p : Column} (h : InSquare D (p :: points))
    {e : Column × Column} (he : e ∈ Polygon.ring points) :
    e.2.Close D e.1 ∧ p.Close D e.1 ∧ e.2.Close D p := by
  obtain ⟨h1, h2⟩ := Polygon.mem_of_mem_ring he
  have hp : p ∈ p :: points := List.mem_cons_self
  have h1 := List.mem_cons_of_mem p h1
  have h2 := List.mem_cons_of_mem p h2
  exact ⟨h _ h2 _ h1, h _ hp _ h1, h _ h2 _ hp⟩

namespace Polygon

variable {points : List Column} {p a b : Column} {D : ℤ} {inside : Bool}
  {edges : List (Column × Column)}

/-- 64 bits hold the area that a column spans with an edge, and the products that it is made of. -/
def Measured (p a b : Column) : Prop :=
  Fits 64 ((b.x - a.x) * (p.z - a.z)) ∧ Fits 64 ((b.z - a.z) * (p.x - a.x)) ∧ Fits 64 (area p a b)

instance (p a b : Column) : Decidable (Measured p a b) :=
  inferInstanceAs (Decidable (_ ∧ _ ∧ _))

/-! ## One edge -/

/-- Of a product of two small differences only the product itself may not fit. -/
theorem product?_eq {u v w t : ℤ} (hD : D < 2 ^ 63) (huv : |u - v| ≤ D) (hwt : |w - t| ≤ D) :
    product? u v w t = fit? 64 ((u - v) * (w - t)) := by
  unfold product?
  rw [fit?_of_fits (.of_abs_le huv hD), fit?_of_fits (.of_abs_le hwt hD)]
  rfl

theorem area?_eq (hD : D < 2 ^ 63) (hba : b.Close D a) (hpa : p.Close D a) :
    area? p a b = if Measured p a b then some (area p a b) else none := by
  unfold area?
  rw [product?_eq hD hba.x hpa.z, product?_eq hD hba.z hpa.x]
  by_cases h1 : Fits 64 ((b.x - a.x) * (p.z - a.z))
  · rw [fit?_of_fits h1]
    by_cases h2 : Fits 64 ((b.z - a.z) * (p.x - a.x))
    · rw [fit?_of_fits h2]
      by_cases h3 : Fits 64 (area p a b)
      · rw [if_pos ⟨h1, h2, h3⟩]
        exact fit?_of_fits h3
      · rw [if_neg fun h => h3 h.2.2]
        exact fit?_of_not_fits h3
    · rw [fit?_of_not_fits h2, if_neg fun h => h2 h.2.1]
      rfl
  · rw [fit?_of_not_fits h1, if_neg fun h => h1 h.1]
    rfl

/-- **Whether a column is on an edge is answered just if the edge is measured.** -/
theorem onSegment?_eq (hD : D < 2 ^ 63) (hba : b.Close D a) (hpa : p.Close D a) :
    onSegment? p a b = if Measured p a b then some (onSegment p a b) else none := by
  unfold onSegment?
  rw [area?_eq hD hba hpa]
  split
  · rfl
  · rfl

/-- Whether an edge is crossed is told by the products of its area. -/
theorem crosses?_eq (hD : D < 2 ^ 63) (hba : b.Close D a) (hpa : p.Close D a)
    (h : Measured p a b) : crosses? p a b = some (crosses p a b) := by
  obtain ⟨hright, hleft, -⟩ := h
  rw [mul_comm] at hleft
  unfold crosses? crosses
  rw [product?_eq hD hpa.x hba.z, product?_eq hD hba.x hpa.z, fit?_of_fits hright, fit?_of_fits hleft]
  split
  · rename_i hrow
    rw [hrow]
    rfl
  · rename_i hrow
    rw [Bool.not_eq_true] at hrow
    rw [hrow]
    rfl

/-! ## All edges -/

/-- The ends of the edges are close to the column and to each other. -/
def Near (D : ℤ) (p : Column) (edges : List (Column × Column)) : Prop :=
  ∀ e ∈ edges, e.2.Close D e.1 ∧ p.Close D e.1

variable {e : Column × Column}

theorem walk?_cons (hD : D < 2 ^ 63) (hnear : e.2.Close D e.1 ∧ p.Close D e.1) :
    walk? p inside (e :: edges) = if Measured p e.1 e.2 then
      if onSegment p e.1 e.2 then some true else walk? p (inside != crosses p e.1 e.2) edges
    else none := by
  obtain ⟨hba, hpa⟩ := hnear
  rw [walk?, onSegment?_eq hD hba hpa]
  by_cases h : Measured p e.1 e.2
  · rw [if_pos h, if_pos h, crosses?_eq hD hba hpa h]
    cases onSegment p e.1 e.2 with
    | true => rfl
    | false => rfl
  · rw [if_neg h, if_neg h]
    rfl

/-- **Where the program stops**: at the first edge that is not measured, unless it has found before that
the column is on an edge. -/
theorem walk?_eq_none_iff (hD : D < 2 ^ 63) (hnear : Near D p edges) : walk? p inside edges = none ↔
    ∃ before e after, edges = before ++ e :: after ∧ (∀ f ∈ before, onSegment p f.1 f.2 = false) ∧
      ¬ Measured p e.1 e.2 := by
  induction edges generalizing inside with
  | nil =>
    constructor
    · exact fun h => nomatch h
    · rintro ⟨before, e, after, h, -⟩
      exact absurd h.symm (by simp)
  | cons e edges ih =>
    obtain ⟨hhead, htail⟩ := List.forall_mem_cons.1 hnear
    rw [walk?_cons hD hhead]
    by_cases h : Measured p e.1 e.2
    · rw [if_pos h]
      constructor
      · intro hnone
        split at hnone
        · exact nomatch hnone
        rename_i hoff
        rw [Bool.not_eq_true] at hoff
        obtain ⟨before, f, after, rfl, hbefore, hf⟩ := (ih htail).1 hnone
        exact ⟨e :: before, f, after, rfl, List.forall_mem_cons.2 ⟨hoff, hbefore⟩, hf⟩
      · rintro ⟨before, f, after, hsplit, hbefore, hf⟩
        cases before with
        | nil =>
          obtain ⟨rfl, -⟩ := List.cons.inj hsplit
          exact absurd h hf
        | cons first before =>
          obtain ⟨rfl, rfl⟩ := List.cons.inj hsplit
          obtain ⟨hoff, hbefore⟩ := List.forall_mem_cons.1 hbefore
          rw [hoff, if_neg Bool.false_ne_true]
          exact (ih htail).2 ⟨before, f, after, rfl, hbefore, hf⟩
    · rw [if_neg h]
      exact ⟨fun _ => ⟨[], e, edges, rfl, by simp, h⟩, fun _ => rfl⟩

/-- A crossing leads from one side to the other. -/
theorem bne_parity_cons (n : ℕ) (crossed : Bool) :
    ((inside != crossed) != (n % 2 == 1)) =
      (inside != ((n + if crossed = true then 1 else 0) % 2 == 1)) := by
  cases crossed with
  | false => rw [Bool.bne_false, if_neg Bool.false_ne_true, Nat.add_zero]
  | true =>
    have hflip : ((n + 1) % 2 == 1) = !(n % 2 == 1) := by
      rw [Bool.eq_iff_iff, Bool.not_eq_true', beq_iff_eq, beq_eq_false_iff_ne]
      omega
    have hother : ∀ i o : Bool, ((i != true) != o) = (i != !o) := by decide
    rw [if_pos rfl, hflip, hother]

/-- **What the edges answer**, if they do, is the answer with exact numbers. -/
theorem walk?_attains {safe : Prop} (hD : D < 2 ^ 63) (hnear : Near D p edges)
    (hsafe : safe → ∀ e ∈ edges, Measured p e.1 e.2) : Attains safe (walk? p inside edges)
      (edges.any (fun e => onSegment p e.1 e.2) ||
        inside != (edges.countP (fun e => crosses p e.1 e.2) % 2 == 1)) := by
  induction edges generalizing inside with
  | nil =>
    cases inside with
    | false => exact .done _ _
    | true => exact .done _ _
  | cons e edges ih =>
    obtain ⟨hhead, htail⟩ := List.forall_mem_cons.1 hnear
    rw [walk?_cons hD hhead, List.any_cons, List.countP_cons]
    by_cases h : Measured p e.1 e.2
    · rw [if_pos h]
      cases onSegment p e.1 e.2 with
      | true => exact .done _ _
      | false =>
        rw [← bne_parity_cons]
        exact ih htail fun hs f hf => hsafe hs f (List.mem_cons_of_mem _ hf)
    · rw [if_neg h]
      exact .inr ⟨fun hs => h (hsafe hs e List.mem_cons_self), rfl⟩

/-! ## Outlines -/

theorem near_of_inSquare (hsquare : InSquare D (p :: points)) : Near D p (ring points) :=
  fun _ he => ⟨(hsquare.edge he).1, (hsquare.edge he).2.1⟩

/-- **Which columns are not answered**: those that are on no edge before one that is not measured. -/
theorem encloses?_eq_none_iff (hD : D < 2 ^ 63) (hsquare : InSquare D (p :: points)) :
    encloses? points p = none ↔ ∃ before e after, ring points = before ++ e :: after ∧
      (∀ f ∈ before, onSegment p f.1 f.2 = false) ∧ ¬ Measured p e.1 e.2 :=
  walk?_eq_none_iff hD (near_of_inSquare hsquare)

/-- **An outline that is answered is answered as with exact numbers**, and it is if all its edges are
measured. -/
theorem encloses?_attains {safe : Prop} (hD : D < 2 ^ 63) (hsquare : InSquare D (p :: points))
    (hsafe : safe → ∀ e ∈ ring points, Measured p e.1 e.2) :
    Attains safe (encloses? points p) (encloses points p) := by
  have hwalk : Attains safe (walk? p false (ring points)) _ :=
    walk?_attains hD (near_of_inSquare hsquare) hsafe
  rw [Bool.false_bne] at hwalk
  exact hwalk

theorem abs_area_le (hba : b.Close D a) (hpa : p.Close D a) (hbp : b.Close D p) :
    |area p a b| ≤ D * D := by
  refine abs_det_le hba.x hpa.x ?_ hba.z hpa.z ?_
  · rw [sub_sub_sub_cancel_right]
    exact hbp.x
  · rw [sub_sub_sub_cancel_right]
    exact hbp.z

/-- **In a square whose area fits every edge is measured.** -/
theorem measured_of_inSquare (hD : D * D < 2 ^ 63) (hsquare : InSquare D (p :: points)) :
    ∀ e ∈ ring points, Measured p e.1 e.2 := by
  intro e he
  obtain ⟨hba, hpa, hbp⟩ := hsquare.edge he
  exact ⟨.of_abs_le (abs_mul_le_of_abs_le hba.x hpa.z) hD,
    .of_abs_le (abs_mul_le_of_abs_le hba.z hpa.x) hD, .of_abs_le (abs_area_le hba hpa hbp) hD⟩

end Polygon

end VoxelEdit
