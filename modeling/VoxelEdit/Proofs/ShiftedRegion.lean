import VoxelEdit.Proofs.HullSeparation
import VoxelEdit.Proofs.OutlineSymmetry
import VoxelEdit.Proofs.RegionWalk

/-!
# Regions that are moved

A shift moves what defines a shape and makes the rest of the shape anew: its box, and the half-spaces
of a hull.

* `Box.positions_offset`: the positions of a box that is moved, in the same order.
* `Shape.shift_box`: what a shape reaches moves with it, and so does its box, as there is only one
  smallest box.
* `Shape.contains_shift`: a shape contains what it contained, moved. An outline answers alike for each
  of its edges, and a hull for whatever separates.
* `Shape.shift_back`: a shift and its opposite give the same shape.
* `Region.shift_rigid`: **a shift is rigid, for every region.**
-/

namespace VoxelEdit

variable {d : Pos}

/-! ## Boxes -/

namespace Box

variable {b : Box} {ps : List Pos}

theorem dims_offset (b : Box) (d : Pos) : (b.offset d).dims = b.dims := by
  apply Pos.ext <;>
    simp only [dims_x, dims_y, dims_z, offset, Pos.add_x, Pos.add_y, Pos.add_z] <;> omega

theorem offset_back (b : Box) (d : Pos) : (b.offset d).offset (-d) = b := by
  simp only [offset, Pos.add_neg_cancel_right]

theorem contains_offset (b : Box) (d p : Pos) : (b.offset d).contains (p + d) = b.contains p := by
  rw [Bool.eq_iff_iff, contains_iff, contains_iff]
  simp only [offset, Pos.add_x, Pos.add_y, Pos.add_z]
  omega

theorem run_offset (lo v : ℤ) (n : ℕ) : run (lo + v) n = (run lo n).map (· + v) := by
  unfold run
  rw [List.map_map]
  refine List.map_congr_left fun i _ => ?_
  dsimp only [Function.comp_apply]
  omega

/-- **The positions of a box move with it, in the same order.** -/
theorem positions_offset (b : Box) (d : Pos) :
    (b.offset d).positions = b.positions.map (· + d) := by
  unfold positions
  rw [dims_offset]
  dsimp only [offset, Pos.add_x, Pos.add_y, Pos.add_z]
  simp only [run_offset, List.flatMap_map, List.map_flatMap, List.map_map]
  rfl

/-- The smallest box around positions moves with them. -/
theorem Hugs.offset (hb : b.Hugs ps) (d : Pos) : (b.offset d).Hugs (ps.map (· + d)) := by
  have hget (p : Pos) (axis : Axis) : (p + d).get axis = p.get axis + d.get axis := by
    cases axis <;> rfl
  refine ⟨fun axis => ⟨?_, ?_⟩, fun axis => ⟨?_, ?_⟩⟩
  · obtain ⟨p, hp, hv⟩ := (hb.least axis).1
    exact ⟨p + d, List.mem_map_of_mem hp, by rw [Box.offset, hget, hget, hv]⟩
  · rintro v ⟨q, hq, rfl⟩
    obtain ⟨p, hp, rfl⟩ := List.mem_map.1 hq
    have hle : b.min.get axis ≤ p.get axis := (hb.least axis).2 ⟨p, hp, rfl⟩
    rw [Box.offset, hget, hget]
    omega
  · obtain ⟨p, hp, hv⟩ := (hb.greatest axis).1
    exact ⟨p + d, List.mem_map_of_mem hp, by rw [Box.offset, hget, hget, hv]⟩
  · rintro v ⟨q, hq, rfl⟩
    obtain ⟨p, hp, rfl⟩ := List.mem_map.1 hq
    have hle : p.get axis ≤ b.max.get axis := (hb.greatest axis).2 ⟨p, hp, rfl⟩
    rw [Box.offset, hget, hget]
    omega

end Box

/-! ## Outlines -/

/-- The column moved by `d`. -/
def Column.move (d : Pos) (c : Column) : Column := ⟨c.x + d.x, c.z + d.z⟩

namespace Polygon

variable {g : Polygon}

theorem area_move (d : Pos) (p a b : Column) :
    area (p.move d) (a.move d) (b.move d) = area p a b := by
  simp only [area, Column.move, add_sub_add_right_eq_sub]

theorem onSegment_move (d : Pos) (p a b : Column) :
    onSegment (p.move d) (a.move d) (b.move d) = onSegment p a b := by
  unfold onSegment alongside
  rw [area_move]
  simp only [Column.move, min_add_add_right, max_add_add_right, add_le_add_iff_right]

theorem crosses_move (d : Pos) (p a b : Column) :
    crosses (p.move d) (a.move d) (b.move d) = crosses p a b := by
  unfold crosses straddles
  simp only [Column.move, add_sub_add_right_eq_sub, gt_iff_lt, add_lt_add_iff_right]

/-- **An outline that is moved encloses what it enclosed, moved.** -/
theorem encloses_move (d : Pos) (points : List Column) (p : Column) :
    encloses (points.map (Column.move d)) (p.move d) = encloses points p := by
  unfold encloses
  rw [ring_map]
  simp only [List.any_map, List.countP_map, Function.comp_def, Prod.map_fst, Prod.map_snd,
    onSegment_move, crosses_move]

theorem contains_shift (g : Polygon) (d p : Pos) : (g.shift d).contains (p + d) = g.contains p := by
  have henc := encloses_move d g.points ⟨p.x, p.z⟩
  rw [Bool.eq_iff_iff]
  unfold contains
  simp only [Bool.and_eq_true, decide_eq_true_eq]
  show (g.minY + d.y ≤ p.y + d.y ∧ p.y + d.y ≤ g.maxY + d.y) ∧
    encloses (g.points.map (Column.move d)) (Column.move d ⟨p.x, p.z⟩) = true ↔ _
  rw [henc]
  refine and_congr_left fun _ => ?_
  omega

theorem shift_back (hbox : g.box = envelope g.points g.minY g.maxY) (d : Pos) :
    (g.shift d).shift (-d) = g := by
  have hpoints : (g.points.map (Column.move d)).map (Column.move (-d)) = g.points := by
    rw [List.map_map]
    refine List.map_id'' (fun c => ?_) g.points
    simp only [Function.comp_apply, Column.move, Pos.neg_x, Pos.neg_z, Int.add_neg_cancel_right]
  have hshift : (g.shift d).shift (-d) = make ((g.points.map (Column.move d)).map (Column.move (-d)))
      (g.minY + d.y + -d.y) (g.maxY + d.y + -d.y) := rfl
  rw [hshift, hpoints, Int.add_neg_cancel_right, Int.add_neg_cancel_right, make, ← hbox]

end Polygon

/-! ## Shapes -/

namespace Shape

variable {R : Type} [Radius R] {s : Shape R}

/-- What a shape reaches moves with it. -/
theorem extremes_shift (s : Shape R) (d : Pos) : (s.shift d).extremes = s.extremes.map (· + d) := by
  cases s with
  | cuboid c => rfl
  | expand e => rfl
  | sphere s =>
    have hlow (r : Pos) : s.center + d - r = s.center - r + d := by
      apply Pos.ext <;> simp only [Pos.add_x, Pos.add_y, Pos.add_z, Pos.sub_x, Pos.sub_y, Pos.sub_z] <;>
        omega
    have hhigh (r : Pos) : s.center + d + r = s.center + r + d := by
      apply Pos.ext <;> simp only [Pos.add_x, Pos.add_y, Pos.add_z] <;> omega
    show [s.center + d - _, s.center + d + _] = [s.center - _ + d, s.center + _ + d]
    rw [hlow, hhigh]
    rfl
  | polygon g =>
    show Polygon.bothEnds (g.points.map (Column.move d)) (g.minY + d.y) (g.maxY + d.y) =
      (Polygon.bothEnds g.points g.minY g.maxY).map (· + d)
    unfold Polygon.bothEnds
    rw [List.flatMap_map, List.map_flatMap]
    rfl
  | convex c => rfl

/-- **The box of a shape moves with it.** -/
theorem shift_box (hs : s.Sound) (hfilled : s.Filled) (d : Pos) :
    (s.shift d).box = s.box.offset d := by
  have hmoved := (hs.shift d).hugs (hfilled.shift d)
  rw [extremes_shift] at hmoved
  exact hmoved.unique ((hs.hugs hfilled).offset d)

/-- **A shape that is moved contains what it contained, moved.** -/
theorem contains_shift (hs : s.Sound) (hfilled : s.Filled) (d p : Pos) :
    (s.shift d).contains (p + d) = s.contains p := by
  cases s with
  | cuboid c =>
    -- a cuboid contains what its box does
    have hbox : (c.shift d).box = c.box.offset d := shift_box hs hfilled d
    show (c.shift d).box.contains (p + d) = c.box.contains p
    rw [hbox, Box.contains_offset]
  | expand e => exact e.box.contains_offset d p
  | sphere s =>
    have hdist : (p + d).distanceSquared (s.center + d) = p.distanceSquared s.center := by
      simp only [Pos.distanceSquared, Pos.add_x, Pos.add_y, Pos.add_z, add_sub_add_right_eq_sub]
    exact congrArg (Radius.covers s.radius) hdist
  | polygon g => exact g.contains_shift d p
  | convex c => exact Convex.contains_shift hs hfilled.1 d p

/-- **A shift and its opposite give the same shape.** -/
theorem shift_back (hs : s.Sound) (d : Pos) : (s.shift d).shift (-d) = s := by
  cases s with
  | cuboid c =>
    have hbox : c.box = .span c.main c.vice := hs
    show cuboid (.ofCorners (c.main + d + -d) (c.vice + d + -d)) = _
    rw [Pos.add_neg_cancel_right, Pos.add_neg_cancel_right, Cuboid.ofCorners, ← hbox]
  | expand e => exact congrArg (fun b => expand ⟨b⟩) (e.box.offset_back d)
  | sphere s =>
    have hbox : s.box = Sphere.around s.center s.radius := hs
    show sphere (.make (s.center + d + -d) s.radius) = _
    rw [Pos.add_neg_cancel_right, Sphere.make, ← hbox]
  | polygon g => exact congrArg polygon (Polygon.shift_back hs.2 d)
  | convex c =>
    have hpoints : c = .ofPoints c.points := hs
    show convex (.ofPoints ((c.points.map (· + d)).map (· + -d))) = _
    rw [Pos.map_add_neg, ← hpoints]

end Shape

/-! ## Regions -/

namespace Region

variable {R : Type} [Radius R] {r : Region R}

/-- The positions of a region move with it, in the same order. -/
theorem positions_shift (hr : r.Reached) (d : Pos) :
    (r.shift d).positions = r.positions.map (· + d) := by
  have hbox : (r.shift d).box = r.box.offset d := Shape.shift_box hr.sound hr.filled d
  unfold positions
  rw [hbox, Box.positions_offset, List.filter_map]
  refine congrArg _ (List.filter_congr fun p _ => ?_)
  exact Shape.contains_shift hr.sound hr.filled d p

theorem size_shift (hr : r.Reached) (d : Pos) : (r.shift d).size = r.size := by
  have hmoved : (r.shift d).Reached := .shift d hr
  rw [size_eq_length hmoved.sound.ordered, size_eq_length hr.sound.ordered, positions_shift hr,
    List.length_map]

/-- **A shift is rigid.** It is accepted by every region, whatever its shape; the region then contains
what it contained, moved, and walks through it in the same order; its size stays as it is; and the
opposite shift gives the same region again. -/
theorem shift_rigid (hr : r.Reached) (d : Pos) :
    (r.call (.shift d)).1 = true ∧
      (∀ p, (r.call (.shift d)).2.contains (p + d) = r.contains p) ∧
      (r.call (.shift d)).2.positions = r.positions.map (· + d) ∧
      (r.call (.shift d)).2.size = r.size ∧
      (r.call (.shift d)).2.call (.shift (-d)) = (true, r) := by
  refine ⟨rfl, fun p => Shape.contains_shift hr.sound hr.filled d p, positions_shift hr d,
    size_shift hr d, ?_⟩
  have hback : (r.shift d).shift (-d) = r :=
    congrArg (fun shape => { r with shape }) (Shape.shift_back hr.sound d)
  exact congrArg (Prod.mk true) hback

/-- A tetrahedron is moved below zero: a point on its slanted side stays on it, and one beyond stays
beyond. -/
theorem shift_rigid_tetrahedron :
    ∃ r : Region ℝ, r.Reached ∧ r.kind = .convex ∧
      (r.call (.shift ⟨-7, 3, -5⟩)).2.contains ⟨-6, 4, -3⟩ = true ∧
      (r.call (.shift ⟨-7, 3, -5⟩)).2.contains ⟨-5, 4, -3⟩ = false ∧
      (r.call (.shift ⟨-7, 3, -5⟩)).2.size = r.size ∧
      (r.call (.shift ⟨-7, 3, -5⟩)).2.call (.shift ⟨7, -3, 5⟩) = (true, r) := by
  let r₁ : Region ℝ := ofPoint .convex 0 .zero
  have h₁ : r₁.Reached := .ofPoint .convex 0 .zero
  let r := r₁.calls [.setVice ⟨4, 0, 0⟩, .setVice ⟨0, 4, 0⟩, .setVice ⟨0, 0, 4⟩]
  have hr : r.Reached := h₁.calls _
  obtain ⟨-, hcontains, -, hsize, hback⟩ := shift_rigid hr ⟨-7, 3, -5⟩
  refine ⟨r, hr, rfl, ?_, ?_, hsize, hback⟩
  · exact (hcontains ⟨1, 1, 2⟩).trans (by decide)
  · exact (hcontains ⟨2, 1, 2⟩).trans (by decide)

end Region

end VoxelEdit
