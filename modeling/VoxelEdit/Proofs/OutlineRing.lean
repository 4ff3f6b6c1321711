import Mathlib.Data.List.Rotate
import Mathlib.Tactic.Common
import VoxelEdit.Region.Polygon

/-!
# Edges of an outline

An outline is walked from vertex to vertex and back to the first one.

* `path`: the edges of a walk. Walks put one after the other have both edges (`path_append`), and a
  walk back has them reversed (`path_reverse`).
* `ring_rotate`, `ring_reverse`, `ring_map`: the edges of an outline that begins elsewhere, runs the
  other way round, or is moved.
* `isRotated_of_mem_ring`: some rotation of an outline begins with any given edge.
* `parity_eq`: **two ways of counting edges agree up to an even number, if they differ only where the
  ends of an edge lie on different sides of something.**
-/

namespace VoxelEdit.Polygon

variable {points l : List Column} {a b prev : Column}

/-! ## Paths -/

/-- The edges of a walk from a vertex through others: each of these with the one before it. -/
def path (prev : Column) (l : List Column) : List (Column × Column) := l.zip (prev :: l)

@[simp] theorem path_nil (prev : Column) : path prev [] = [] := rfl

@[simp] theorem path_cons (prev a : Column) (l : List Column) :
    path prev (a :: l) = (a, prev) :: path a l := rfl

theorem path_append (prev : Column) (l m : List Column) :
    path prev (l ++ m) = path prev l ++ path (l.getLastD prev) m := by
  induction l generalizing prev with
  | nil => rfl
  | cons a l ih => rw [List.cons_append, path_cons, ih, path_cons, List.getLastD_cons, List.cons_append]

theorem path_concat (prev a : Column) (l : List Column) :
    path prev (l ++ [a]) = path prev l ++ [(a, l.getLastD prev)] := path_append prev l [a]

/-- A walk back has the same edges, the other way round. -/
theorem path_reverse (a b : Column) (l : List Column) :
    (path b (l.reverse ++ [a])).Perm ((path a (l ++ [b])).map Prod.swap) := by
  induction l generalizing a with
  | nil => exact List.Perm.refl _
  | cons c l ih =>
    have hback : path b ((c :: l).reverse ++ [a]) = path b (l.reverse ++ [c]) ++ [(a, c)] := by
      rw [List.reverse_cons, path_concat, List.getLastD_concat]
    have hforth : (path a (c :: l ++ [b])).map Prod.swap =
        (a, c) :: (path c (l ++ [b])).map Prod.swap := rfl
    rw [hback, hforth]
    exact (List.perm_append_singleton _ _).trans ((ih c).cons _)

/-- An edge leads to each vertex of a walk. -/
theorem exists_mem_path (ha : a ∈ l) : ∃ b, (a, b) ∈ path prev l := by
  induction l generalizing prev with
  | nil => exact nomatch ha
  | cons c l ih =>
    rcases List.mem_cons.1 ha with rfl | hmem
    · exact ⟨prev, List.mem_cons_self⟩
    · obtain ⟨b, hb⟩ := ih hmem
      exact ⟨b, List.mem_cons_of_mem _ hb⟩

/-- The ends of an edge come one after the other. -/
theorem path_split (h : (b, a) ∈ path prev l) : ∃ s t, prev :: l = s ++ a :: b :: t := by
  induction l generalizing prev with
  | nil => exact nomatch h
  | cons c l ih =>
    rcases List.mem_cons.1 h with heq | hmem
    · obtain ⟨rfl, rfl⟩ := Prod.mk.inj heq
      exact ⟨[], l, rfl⟩
    · obtain ⟨s, t, hst⟩ := ih hmem
      exact ⟨prev :: s, t, congrArg (prev :: ·) hst⟩

/-! ## Rings -/

theorem ring_cons (a : Column) (l : List Column) : ring (a :: l) = (a, l.getLastD a) :: path a l := by
  have hlast : (a :: l).getLast? = some (l.getLastD a) := by
    rw [List.getLast?_cons, List.getLastD_eq_getLast?]
  unfold ring
  rw [hlast]
  rfl

theorem ring_concat (l : List Column) (a : Column) : ring (l ++ [a]) = path a (l ++ [a]) := by
  unfold ring
  rw [List.getLast?_concat]
  rfl

theorem ring_step (a : Column) (l : List Column) : (ring (l ++ [a])).Perm (ring (a :: l)) := by
  rw [ring_concat, path_concat, ring_cons]
  exact List.perm_append_singleton _ _

theorem mem_of_mem_ring (h : (a, b) ∈ ring points) : a ∈ points ∧ b ∈ points := by
  unfold ring at h
  cases hlast : points.getLast? with
  | none =>
    rw [hlast] at h
    exact absurd h (by simp)
  | some last =>
    rw [hlast] at h
    obtain ⟨ha, hb⟩ := List.of_mem_zip h
    refine ⟨ha, ?_⟩
    rcases List.mem_cons.1 hb with rfl | hb
    · exact List.mem_of_getLast? hlast
    · exact hb

/-- An edge leads to each vertex of an outline. -/
theorem exists_mem_ring (ha : a ∈ points) : ∃ b, (a, b) ∈ ring points := by
  cases points with
  | nil => exact nomatch ha
  | cons c l =>
    rw [ring_cons, ← path_cons]
    exact exists_mem_path ha

/-- **An outline that begins at another vertex has the same edges.** -/
theorem ring_rotate (points : List Column) (n : ℕ) : (ring (points.rotate n)).Perm (ring points) := by
  induction n generalizing points with
  | zero => rw [List.rotate_zero]
  | succ n ih =>
    cases points with
    | nil => rw [List.rotate_nil]
    | cons a l =>
      rw [List.rotate_cons_succ]
      exact (ih _).trans (ring_step a l)

/-- **An outline that runs the other way round has the same edges, reversed.** -/
theorem ring_reverse (points : List Column) :
    (ring points.reverse).Perm ((ring points).map Prod.swap) := by
  cases points with
  | nil => exact List.Perm.refl _
  | cons a l =>
    have hforth : (ring (a :: l)).Perm (path a (l ++ [a])) := by
      rw [← ring_concat]
      exact (ring_step a l).symm
    rw [List.reverse_cons, ring_concat]
    exact (path_reverse a a l).trans (hforth.symm.map Prod.swap)

/-- Some rotation of an outline begins with any given edge. -/
theorem isRotated_of_mem_ring (hlen : 2 ≤ points.length) (h : (b, a) ∈ ring points) :
    ∃ rest, points.IsRotated (a :: b :: rest) := by
  cases points with
  | nil => exact nomatch h
  | cons c l =>
    rw [ring_cons] at h
    rcases List.mem_cons.1 h with heq | hmem
    · -- the last edge leads back to the first vertex
      obtain ⟨rfl, rfl⟩ := Prod.mk.inj heq
      have hne : l ≠ [] := by
        rintro rfl
        simp at hlen
      have hlast : l.getLastD b = l.getLast hne := by
        rw [List.getLastD_eq_getLast?, List.getLast?_eq_some_getLast hne, Option.getD_some]
      have hsplit : b :: l = (b :: l.dropLast) ++ [l.getLastD b] := by
        rw [hlast, List.cons_append, List.dropLast_concat_getLast]
      refine ⟨l.dropLast, ?_⟩
      have hrot : (b :: l.dropLast ++ [l.getLastD b]).IsRotated (l.getLastD b :: b :: l.dropLast) :=
        List.isRotated_concat _ _
      rw [← hsplit] at hrot
      exact hrot
    · obtain ⟨s, t, hst⟩ := path_split hmem
      rw [hst]
      exact ⟨t ++ s, List.isRotated_append⟩

theorem ring_map (f : Column → Column) (points : List Column) :
    ring (points.map f) = (ring points).map (Prod.map f f) := by
  unfold ring
  rw [List.getLast?_map]
  cases points.getLast? with
  | none => rfl
  | some last =>
    show (points.map f).zip ((last :: points).map f) = _
    exact List.zip_map

/-! ## Parity -/

/-- Along a path, the sides change an odd number of times if its ends lie on different sides. -/
theorem odd_changes (side : Column → Bool) (prev : Column) (l : List Column) :
    ((path prev l).countP fun e => side e.1 != side e.2) % 2 = 1 ↔
      side (l.getLastD prev) ≠ side prev := by
  induction l generalizing prev with
  | nil => simp
  | cons a l ih =>
    rw [path_cons, List.countP_cons, List.getLastD_cons]
    have h := ih a
    by_cases hstep : side a = side prev
    · simp only [hstep, bne_self_eq_false, Bool.false_eq_true, if_false, Nat.add_zero]
      rw [h, hstep]
    · have hne : (side a != side prev) = true := by simpa using hstep
      simp only [hne, if_true]
      -- of two sides that differ, the end is on one
      have hlast : side (l.getLastD a) ≠ side prev ↔ side (l.getLastD a) = side a := by
        revert hstep
        cases side (l.getLastD a) <;> cases side a <;> cases side prev <;> simp
      have hodd : ∀ n : ℕ, (n + 1) % 2 = 1 ↔ ¬ n % 2 = 1 := fun n => by omega
      rw [hlast, hodd, h, not_ne_iff]

/-- **Around a closed outline the sides change an even number of times.** -/
theorem ring_changes_even (side : Column → Bool) (points : List Column) :
    ((ring points).countP fun e => side e.1 != side e.2) % 2 = 0 := by
  cases points with
  | nil => rfl
  | cons a l =>
    have h := odd_changes side (l.getLastD a) (a :: l)
    have hnot := mt h.1 fun hne => hne (by rw [List.getLastD_cons])
    rw [ring_cons, ← path_cons]
    omega

/-- What is counted in one of two ways, but not in both. -/
theorem countP_bne_parity {α : Type} (f g : α → Bool) (l : List α) :
    (l.countP fun e => f e != g e) % 2 = (l.countP f + l.countP g) % 2 := by
  induction l with
  | nil => rfl
  | cons e l ih =>
    simp only [List.countP_cons]
    cases f e <;> cases g e <;> simp <;> omega

/-- **Edges that are counted in one of two ways only are even in number, if they are those whose ends
lie on different sides.** -/
theorem parity_eq {f g : Column × Column → Bool} (side : Column → Bool)
    (h : ∀ e ∈ ring points, (f e != g e) = (side e.1 != side e.2)) :
    (ring points).countP f % 2 = (ring points).countP g % 2 := by
  have hsame : ((ring points).countP fun e => f e != g e) =
      (ring points).countP fun e => side e.1 != side e.2 := by
    refine List.countP_congr fun e he => ?_
    rw [h e he]
  have heven := ring_changes_even side points
  have hboth := countP_bne_parity f g (ring points)
  omega

end VoxelEdit.Polygon
