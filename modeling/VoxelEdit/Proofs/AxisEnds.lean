import VoxelEdit.Grid.Axis
import VoxelEdit.Proofs.BoxIndex
import VoxelEdit.Region.Cuboid
import VoxelEdit.Region.Expand
import VoxelEdit.Region.Polygon

/-!
# Ends along an axis

Cuboids, expanding boxes and prisms are resized axis by axis: every change moves one of two ends.
They differ in when the ends are put in order.

* `Ends.moveAll`: the ends after a list of changes. Shrunk, the lower end rises by all positive
  changes and the upper one falls by all negative ones (`moveAll_contract`); grown, it is the other
  way round (`moveAll_expand`), and shrinking by the negated changes leads back (`moveAll_restored`).
* `Ends.moveInOrder`: the same, with the ends put in order after every change. It makes no
  difference as long as the ends do not pass each other (`moveInOrder_contract`), and never when they
  are grown (`moveInOrder_expand`).
* **A cuboid has its ends in order after every change** (`Cuboid.resize_ends`), **an expanding box
  at the end** (`Expand.resize_ends`), **and a prism is refused if they are not**
  (`Polygon.resize?_eq_some`).
-/

namespace VoxelEdit

namespace Ends

/-- Two ends, the smaller one first. -/
def inOrder (e : Int × Int) : Int × Int := (min e.1 e.2, max e.1 e.2)

/-- The ends after one change. -/
def move (grow : Bool) (e : Int × Int) (d : Int) : Int × Int := Expand.moveEnd grow e.1 e.2 d

/-- The ends after a list of changes. -/
def moveAll (grow : Bool) (e : Int × Int) (ds : List Int) : Int × Int := ds.foldl (move grow) e

/-- The ends after a list of changes, put in order after each. -/
def moveInOrder (grow : Bool) (e : Int × Int) (ds : List Int) : Int × Int :=
  ds.foldl (fun e d => inOrder (move grow e d)) e

/-- The sum of the positive changes. -/
def rises (ds : List Int) : Int := (ds.map fun d => max d 0).sum

/-- The sum of the negative changes. -/
def falls (ds : List Int) : Int := (ds.map fun d => min d 0).sum

variable {e : Int × Int} {d : Int} {ds : List Int}

@[simp] theorem rises_nil : rises [] = 0 := rfl

@[simp] theorem falls_nil : falls [] = 0 := rfl

@[simp] theorem rises_cons (d : Int) (ds : List Int) : rises (d :: ds) = max d 0 + rises ds := by
  rw [rises, List.map_cons, List.sum_cons, rises]

@[simp] theorem falls_cons (d : Int) (ds : List Int) : falls (d :: ds) = min d 0 + falls ds := by
  rw [falls, List.map_cons, List.sum_cons, falls]

theorem rises_nonneg (ds : List Int) : 0 ≤ rises ds := by
  induction ds with
  | nil => exact le_rfl
  | cons d ds ih =>
    rw [rises_cons]
    omega

theorem falls_nonpos (ds : List Int) : falls ds ≤ 0 := by
  induction ds with
  | nil => exact le_rfl
  | cons d ds ih =>
    rw [falls_cons]
    omega

theorem sum_abs (ds : List Int) : (ds.map fun d => |d|).sum = rises ds - falls ds := by
  induction ds with
  | nil => rfl
  | cons d ds ih =>
    rw [List.map_cons, List.sum_cons, ih, rises_cons, falls_cons]
    rcases abs_cases d with ⟨hd, h⟩ | ⟨hd, h⟩ <;> omega

theorem rises_neg (ds : List Int) : rises (ds.map fun d => -d) = -falls ds := by
  induction ds with
  | nil => rfl
  | cons d ds ih =>
    rw [List.map_cons, rises_cons, falls_cons, ih]
    omega

theorem falls_neg (ds : List Int) : falls (ds.map fun d => -d) = -rises ds := by
  induction ds with
  | nil => rfl
  | cons d ds ih =>
    rw [List.map_cons, rises_cons, falls_cons, ih]
    omega

/-! ## Where the ends come to lie -/

theorem move_contract (e : Int × Int) (d : Int) :
    move false e d = (e.1 + max d 0, e.2 + min d 0) := by
  unfold move Expand.moveEnd
  by_cases hd : d > 0
  · rw [max_eq_left hd.le, min_eq_right hd.le]
    simp [hd]
  · rw [max_eq_right (not_lt.1 hd), min_eq_left (not_lt.1 hd)]
    simp [hd]

theorem move_expand (e : Int × Int) (d : Int) :
    move true e d = (e.1 + min d 0, e.2 + max d 0) := by
  unfold move Expand.moveEnd
  by_cases hd : d > 0
  · rw [max_eq_left hd.le, min_eq_right hd.le]
    simp [hd]
  · rw [max_eq_right (not_lt.1 hd), min_eq_left (not_lt.1 hd)]
    simp [hd]

/-- **Shrunk, the lower end rises by all positive changes and the upper one falls by all negative
ones.** -/
theorem moveAll_contract (e : Int × Int) (ds : List Int) :
    moveAll false e ds = (e.1 + rises ds, e.2 + falls ds) := by
  induction ds generalizing e with
  | nil => simp [moveAll]
  | cons d ds ih =>
    have hcons : moveAll false e (d :: ds) = moveAll false (move false e d) ds := rfl
    rw [hcons, ih, move_contract, rises_cons, falls_cons, add_assoc, add_assoc]

/-- **Grown, the lower end falls by all negative changes and the upper one rises by all positive
ones.** -/
theorem moveAll_expand (e : Int × Int) (ds : List Int) :
    moveAll true e ds = (e.1 + falls ds, e.2 + rises ds) := by
  induction ds generalizing e with
  | nil => simp [moveAll]
  | cons d ds ih =>
    have hcons : moveAll true e (d :: ds) = moveAll true (move true e d) ds := rfl
    rw [hcons, ih, move_expand, rises_cons, falls_cons, add_assoc, add_assoc]

/-- Ends that have grown shrink back by the negated changes. -/
theorem moveAll_restored (e : Int × Int) (ds : List Int) :
    moveAll false (moveAll true e ds) (ds.map fun d => -d) = e := by
  rw [moveAll_expand, moveAll_contract, rises_neg, falls_neg]
  simp

theorem inOrder_of_le (h : e.1 ≤ e.2) : inOrder e = e := by
  rw [inOrder, min_eq_left h, max_eq_right h]

/-- Ends that are far enough apart for all changes do not pass each other. -/
theorem moveInOrder_contract (he : rises ds - falls ds ≤ e.2 - e.1) :
    moveInOrder false e ds = (e.1 + rises ds, e.2 + falls ds) := by
  induction ds generalizing e with
  | nil => simp [moveInOrder]
  | cons d ds ih =>
    have hcons : moveInOrder false e (d :: ds) =
        moveInOrder false (inOrder (move false e d)) ds := rfl
    have hrise := rises_nonneg ds
    have hfall := falls_nonpos ds
    rw [rises_cons, falls_cons] at he ⊢
    rw [hcons, move_contract, inOrder_of_le (by dsimp only; omega), ih (by dsimp only; omega),
      add_assoc, add_assoc]

/-- Ends in order that are grown stay in order. -/
theorem moveInOrder_expand (he : e.1 ≤ e.2) (ds : List Int) :
    moveInOrder true e ds = moveAll true e ds := by
  induction ds generalizing e with
  | nil => rfl
  | cons d ds ih =>
    have hmoved : move true e d = (e.1 + min d 0, e.2 + max d 0) := move_expand e d
    have hle : (move true e d).1 ≤ (move true e d).2 := by
      rw [hmoved]
      dsimp only
      omega
    calc moveInOrder true e (d :: ds)
        = moveInOrder true (inOrder (move true e d)) ds := rfl
      _ = moveAll true (move true e d) ds := by rw [inOrder_of_le hle, ih hle]

end Ends

/-- Two positions along an axis. -/
def Pos.along (axis : Axis) (corners : Pos × Pos) : Int × Int :=
  (corners.1.get axis, corners.2.get axis)

/-- The ends of a box along an axis. -/
def Box.ends (b : Box) (axis : Axis) : Int × Int := Pos.along axis (b.min, b.max)

open Ends

theorem Box.ends_span (p q : Pos) (axis : Axis) :
    (span p q).ends axis = inOrder (p.get axis, q.get axis) := by
  cases axis <;> rfl

theorem Box.ext_ends {b c : Box} (h : ∀ axis, b.ends axis = c.ends axis) : b = c := by
  have hmin : b.min = c.min :=
    Pos.ext (congrArg Prod.fst (h .x)) (congrArg Prod.fst (h .y)) (congrArg Prod.fst (h .z))
  have hmax : b.max = c.max :=
    Pos.ext (congrArg Prod.snd (h .x)) (congrArg Prod.snd (h .y)) (congrArg Prod.snd (h .z))
  cases b
  cases c
  exact congrArg₂ Box.mk hmin hmax

theorem Box.Ordered.ends_le {b : Box} (hb : b.Ordered) (axis : Axis) :
    (b.ends axis).1 ≤ (b.ends axis).2 := by
  cases axis with
  | x => exact hb.x
  | y => exact hb.y
  | z => exact hb.z

/-- A box lies in another one if its ends lie between the others, along each axis. -/
theorem Box.subset_iff {b c : Box} (hc : c.Ordered) :
    (∀ p, c.contains p = true → b.contains p = true) ↔
      ∀ axis, (b.ends axis).1 ≤ (c.ends axis).1 ∧ (c.ends axis).2 ≤ (b.ends axis).2 := by
  obtain ⟨hx, hy, hz⟩ := hc
  constructor
  · -- both corners of the smaller box are enough
    intro h
    have hmin := contains_iff.1 (h c.min (contains_iff.2 ⟨⟨le_rfl, hx⟩, ⟨le_rfl, hy⟩, le_rfl, hz⟩))
    have hmax := contains_iff.1 (h c.max (contains_iff.2 ⟨⟨hx, le_rfl⟩, ⟨hy, le_rfl⟩, hz, le_rfl⟩))
    intro axis
    cases axis with
    | x => exact ⟨hmin.1.1, hmax.1.2⟩
    | y => exact ⟨hmin.2.1.1, hmax.2.1.2⟩
    | z => exact ⟨hmin.2.2.1, hmax.2.2.2⟩
  · intro h p hp
    obtain ⟨⟨h1, h2⟩, ⟨h3, h4⟩, h5, h6⟩ := contains_iff.1 hp
    exact contains_iff.2 ⟨⟨(h .x).1.trans h1, h2.trans (h .x).2⟩,
      ⟨(h .y).1.trans h3, h4.trans (h .y).2⟩, (h .z).1.trans h5, h6.trans (h .z).2⟩

/-! ## Resized shapes -/

/-- The corner that is moved is the one that lies at the end that is moved. -/
theorem Cuboid.moveSide_inOrder (m v : Int) (upper : Bool) (d : Int) :
    inOrder (moveSide m v upper d) =
      inOrder (if upper then (min m v, max m v + d) else (min m v + d, max m v)) := by
  unfold moveSide inOrder
  cases upper with
  | true =>
    by_cases h : m ≥ v
    · simp only [if_true, if_pos h, min_eq_right h, max_eq_left h, min_comm, max_comm]
    · simp only [if_true, if_neg h, min_eq_left (not_le.1 h).le, max_eq_right (not_le.1 h).le]
  | false =>
    by_cases h : m ≤ v
    · simp only [Bool.false_eq_true, if_false, if_pos h, min_eq_left h, max_eq_right h]
    · simp only [Bool.false_eq_true, if_false, if_neg h, min_eq_right (not_le.1 h).le,
        max_eq_left (not_le.1 h).le, min_comm, max_comm]

/-- **A cuboid is resized with its ends in order after every change**, whichever corner is the main
one. -/
theorem Cuboid.resize_ends {c : Cuboid} (hbox : c.box = .span c.main c.vice) (grow : Bool)
    (ds : List Pos) (axis : Axis) : (c.resize grow ds).box.ends axis =
      moveInOrder grow (c.box.ends axis) (ds.map fun d => d.get axis) := by
  have hstep (corners : Pos × Pos) (d : Pos) :
      inOrder (move grow (inOrder (Pos.along axis corners)) (d.get axis)) =
        inOrder (Pos.along axis (change grow corners d)) := by
    cases axis <;> exact (moveSide_inOrder _ _ _ _).symm
  have hresize : (c.resize grow ds).box.ends axis =
      inOrder (Pos.along axis (ds.foldl (change grow) (c.main, c.vice))) := Box.ends_span _ _ axis
  rw [hresize, hbox, Box.ends_span, moveInOrder, List.foldl_map]
  exact (List.foldl_hom (fun corners => inOrder (Pos.along axis corners)) hstep).symm

/-- **An expanding box is resized with its ends put in order at the end.** -/
theorem Expand.resize_ends (e : Expand) (grow : Bool) (ds : List Pos) (axis : Axis) :
    (e.resize grow ds).box.ends axis =
      inOrder (moveAll grow (e.box.ends axis) (ds.map fun d => d.get axis)) := by
  have hstep (corners : Pos × Pos) (d : Pos) :
      move grow (Pos.along axis corners) (d.get axis) = Pos.along axis (change grow corners d) := by
    cases axis <;> rfl
  have hresize : (e.resize grow ds).box.ends axis =
      inOrder (Pos.along axis (ds.foldl (change grow) (e.box.min, e.box.max))) :=
    Box.ends_span _ _ axis
  rw [hresize, moveAll, List.foldl_map]
  exact congrArg inOrder (List.foldl_hom (Pos.along axis) hstep).symm

/-- The ends of a prism after changes that are accepted. -/
theorem Polygon.foldlM_moveEnds {grow : Bool} {ds : List Pos} {e e' : Int × Int}
    (h : ds.foldlM (moveEnds? grow) e = some e') :
    e' = moveAll grow e (ds.map Pos.y) := by
  induction ds generalizing e with
  | nil => exact (Option.some.inj h).symm
  | cons d ds ih =>
    rw [List.foldlM_cons] at h
    obtain ⟨next, hnext, h⟩ := Option.bind_eq_some_iff.1 h
    have hmove : next = move grow e d.y := by
      unfold moveEnds? at hnext
      unfold move Expand.moveEnd
      split at hnext
      · exact nomatch hnext
      · split at hnext
        · rename_i hup
          rw [if_pos hup]
          exact (Option.some.inj hnext).symm
        · rename_i hup
          rw [if_neg hup]
          exact (Option.some.inj hnext).symm
    rw [ih h, hmove]
    rfl

/-- **A prism is resized if its ends are in order after all changes**, and keeps its outline. -/
theorem Polygon.resize?_eq_some {g g' : Polygon} {grow : Bool} {ds : List Pos}
    (h : g.resize? grow ds = some g') :
    let ends := moveAll grow (g.minY, g.maxY) (ds.map Pos.y)
    ends.1 ≤ ends.2 ∧ g' = make g.points ends.1 ends.2 := by
  obtain ⟨ends, hends, h⟩ := Option.bind_eq_some_iff.1 h
  rw [← foldlM_moveEnds hends]
  dsimp only at h ⊢
  split at h
  · rename_i hle
    exact ⟨hle, (Option.some.inj h).symm⟩
  · exact nomatch h

end VoxelEdit
