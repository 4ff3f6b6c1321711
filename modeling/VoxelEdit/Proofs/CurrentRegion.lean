import Mathlib.Order.Bounds.Basic
import VoxelEdit.Grid.Axis
import VoxelEdit.Proofs.CanonicalRegion
import VoxelEdit.Proofs.FilledShapes

/-!
# What a shape derives is up to date

A shape keeps its box beside what defines it, and a hull keeps its half-spaces.

* `Box.Hugs`: a box is the smallest one around positions. There is only one (`Box.Hugs.unique`).
* `Shape.extremes`: the positions that the box of a shape must hug.
* `Shape.Current`: what a shape keeps is what its defining parts give.
* `Region.call`: one call on a region, with its answer. `Region.Reached.never_stale`: **every region that
  is reached is current, stays so whatever is called, and is not touched by a call that answers with
  a refusal.**
-/

namespace VoxelEdit

/-! ## Smallest boxes -/

/-- The coordinates of positions along an axis. -/
def Pos.coords (ps : List Pos) (axis : Axis) : Set Int := {v | ∃ p ∈ ps, p.get axis = v}

theorem Pos.ext_get {p q : Pos} (h : ∀ axis, p.get axis = q.get axis) : p = q :=
  Pos.ext (h .x) (h .y) (h .z)

namespace Box

/-- The smallest box around positions: along each axis it begins at the smallest coordinate and ends
at the largest one. -/
structure Hugs (b : Box) (ps : List Pos) : Prop where
  least : ∀ axis, IsLeast (Pos.coords ps axis) (b.min.get axis)
  greatest : ∀ axis, IsGreatest (Pos.coords ps axis) (b.max.get axis)

variable {b c : Box} {ps qs : List Pos} {p : Pos}

theorem contains_iff_get : b.contains p = true ↔
    ∀ axis, b.min.get axis ≤ p.get axis ∧ p.get axis ≤ b.max.get axis := by
  rw [contains_iff]
  refine ⟨fun h axis => ?_, fun h => ⟨h .x, h .y, h .z⟩⟩
  cases axis with
  | x => exact h.1
  | y => exact h.2.1
  | z => exact h.2.2

/-- **There is one smallest box only.** -/
theorem Hugs.unique (hb : b.Hugs ps) (hc : c.Hugs ps) : b = c := by
  have hmin := Pos.ext_get fun axis => (hb.least axis).unique (hc.least axis)
  have hmax := Pos.ext_get fun axis => (hb.greatest axis).unique (hc.greatest axis)
  cases b
  cases c
  exact congrArg₂ Box.mk hmin hmax

theorem Hugs.contains (hb : b.Hugs ps) (hp : p ∈ ps) : b.contains p = true :=
  contains_iff_get.2 fun axis => ⟨(hb.least axis).2 ⟨p, hp, rfl⟩, (hb.greatest axis).2 ⟨p, hp, rfl⟩⟩

/-- More positions inside of a smallest box make no difference. -/
theorem Hugs.extend (hb : b.Hugs ps) (hsub : ps ⊆ qs) (hin : ∀ q ∈ qs, b.contains q = true) :
    b.Hugs qs := by
  refine ⟨fun axis => ⟨?_, ?_⟩, fun axis => ⟨?_, ?_⟩⟩
  · obtain ⟨p, hp, hv⟩ := (hb.least axis).1
    exact ⟨p, hsub hp, hv⟩
  · rintro v ⟨q, hq, rfl⟩
    exact (contains_iff_get.1 (hin q hq) axis).1
  · obtain ⟨p, hp, hv⟩ := (hb.greatest axis).1
    exact ⟨p, hsub hp, hv⟩
  · rintro v ⟨q, hq, rfl⟩
    exact (contains_iff_get.1 (hin q hq) axis).2

theorem point_hugs (p : Pos) : (point p).Hugs [p] := by
  refine ⟨fun axis => ⟨⟨p, List.mem_singleton_self p, rfl⟩, ?_⟩,
    fun axis => ⟨⟨p, List.mem_singleton_self p, rfl⟩, ?_⟩⟩ <;>
  · rintro v ⟨q, hq, rfl⟩
    rw [List.mem_singleton.1 hq]
    exact le_rfl

theorem Hugs.cover (hb : b.Hugs ps) (p : Pos) : (b.cover p).Hugs (p :: ps) := by
  have hcoords (axis : Axis) : Pos.coords (p :: ps) axis =
      insert (p.get axis) (Pos.coords ps axis) := by
    ext v
    constructor
    · rintro ⟨q, hq, rfl⟩
      rcases List.mem_cons.1 hq with rfl | hq
      · exact .inl rfl
      · exact .inr ⟨q, hq, rfl⟩
    · rintro (rfl | ⟨q, hq, rfl⟩)
      · exact ⟨p, List.mem_cons_self, rfl⟩
      · exact ⟨q, List.mem_cons_of_mem p hq, rfl⟩
  have hmin (axis : Axis) : (b.cover p).min.get axis = Min.min (p.get axis) (b.min.get axis) := by
    cases axis <;> exact min_comm _ _
  have hmax (axis : Axis) : (b.cover p).max.get axis = Max.max (p.get axis) (b.max.get axis) := by
    cases axis <;> exact max_comm _ _
  refine ⟨fun axis => ?_, fun axis => ?_⟩
  · rw [hcoords, hmin]
    exact (hb.least axis).insert _
  · rw [hcoords, hmax]
    exact (hb.greatest axis).insert _

/-- A box that covers positions one after the other hugs them, and what it hugged. -/
theorem Hugs.foldl_cover (hb : b.Hugs ps) (qs : List Pos) :
    (qs.foldl Box.cover b).Hugs (qs ++ ps) := by
  induction qs generalizing b ps with
  | nil => exact hb
  | cons q qs ih =>
    have h := ih (hb.cover q)
    have hperm {p : Pos} : p ∈ qs ++ q :: ps ↔ p ∈ q :: qs ++ ps := List.perm_middle.mem_iff
    exact h.extend (fun p hp => hperm.1 hp) fun p hp => h.contains (hperm.2 hp)

theorem span_hugs (p q : Pos) : (span p q).Hugs [p, q] := by
  have h : (span p q).Hugs [q, p] := (point_hugs p).cover q
  have hperm {r : Pos} : r ∈ [q, p] ↔ r ∈ [p, q] := (List.Perm.swap p q []).mem_iff
  exact h.extend (fun r hr => hperm.1 hr) fun r hr => h.contains (hperm.2 hr)

end Box

theorem Convex.envelope_hugs {points : List Pos} (hne : points ≠ []) :
    (envelope points).Hugs points := by
  cases points with
  | nil => exact absurd rfl hne
  | cons p ps =>
    have h : (envelope (p :: ps)).Hugs (ps ++ [p]) := (Box.point_hugs p).foldl_cover ps
    have hperm {q : Pos} : q ∈ ps ++ [p] ↔ q ∈ p :: ps := List.perm_append_comm.mem_iff
    exact h.extend (fun q hq => hperm.1 hq) fun q hq => h.contains (hperm.2 hq)

/-- The vertices of a prism at both ends. -/
def Polygon.bothEnds (points : List Column) (lo hi : Int) : List Pos :=
  points.flatMap fun c => [⟨c.x, lo, c.z⟩, ⟨c.x, hi, c.z⟩]

theorem Polygon.envelope_hugs {points : List Column} {lo hi : Int} (hne : points ≠ [])
    (hends : lo ≤ hi) : (envelope points lo hi).Hugs (bothEnds points lo hi) := by
  obtain ⟨c, cs, rfl⟩ := List.exists_cons_of_ne_nil hne
  have h := (Box.span_hugs (⟨c.x, lo, c.z⟩ : Pos) ⟨c.x, hi, c.z⟩).foldl_cover
    (cs.map fun q => (⟨q.x, lo, q.z⟩ : Pos))
  rw [← envelope_cons] at h
  refine h.extend (fun p hp => ?_) fun p hp => ?_
  · rcases List.mem_append.1 hp with hp | hp
    · obtain ⟨q, hq, rfl⟩ := List.mem_map.1 hp
      exact List.mem_flatMap.2 ⟨q, List.mem_cons_of_mem c hq, List.mem_cons_self⟩
    · exact List.mem_flatMap.2 ⟨c, List.mem_cons_self, hp⟩
  · -- the upper end of a vertex lies above the lower one, and not above the box
    obtain ⟨q, hq, hp⟩ := List.mem_flatMap.1 hp
    obtain ⟨hlow, htop⟩ := envelope_contains hq lo hi
    rcases List.mem_cons.1 hp with rfl | hp
    · exact hlow
    · rw [List.mem_singleton.1 hp]
      obtain ⟨hx, hy, hz⟩ := Box.contains_iff.1 hlow
      exact Box.contains_iff.2 ⟨hx, ⟨hy.1.trans hends, htop⟩, hz⟩

/-! ## Current shapes -/

namespace Shape

variable {R : Type} [Radius R] {s : Shape R}

/-- The positions that the box of a shape hugs: its corners, what it reaches along the axes, its
vertices at both ends, or its points. -/
def extremes : Shape R → List Pos
  | .cuboid c => [c.main, c.vice]
  | .expand e => [e.box.min, e.box.max]
  | .sphere s => [s.center - .splat (Radius.ceil s.radius), s.center + .splat (Radius.ceil s.radius)]
  | .polygon g => Polygon.bothEnds g.points g.minY g.maxY
  | .convex c => c.points

/-- What a shape keeps is what its defining parts give. -/
structure Current (s : Shape R) : Prop where
  box : s.box = s.envelope
  hugs : s.box.Hugs s.extremes
  ordered : s.box.Ordered
  prism : ∀ g, s = .polygon g → g.points ≠ [] ∧ g.minY ≤ g.maxY
  hull : ∀ c, s = .convex c → c.points ≠ [] ∧ c.points.length ≤ Convex.maxPoints ∧
    c.planes = Hull.ofPoints c.points

theorem Sound.hugs (hs : s.Sound) (hfilled : s.Filled) : s.box.Hugs s.extremes := by
  rw [hs.box_eq]
  cases s with
  | cuboid c => exact Box.span_hugs _ _
  | expand e => exact Box.span_hugs _ _
  | sphere s => exact Box.span_hugs _ _
  | polygon g => exact Polygon.envelope_hugs hfilled hs.1
  | convex c => exact Convex.envelope_hugs hfilled.1

theorem Sound.current (hs : s.Sound) (hfilled : s.Filled) : s.Current where
  box := hs.box_eq
  hugs := hs.hugs hfilled
  ordered := hs.ordered
  prism := by
    rintro g rfl
    exact ⟨hfilled, hs.1⟩
  hull := by
    rintro c rfl
    exact ⟨hfilled.1, hfilled.2, congrArg Convex.planes hs⟩

end Shape

/-! ## Calls -/

namespace Region

variable {R : Type} [Radius R] {r : Region R}

/-- The answer of a call, and the region after it: the old one after a refusal. -/
def answered (r : Region R) : Option (Region R) → Bool × Region R
  | some r' => (true, r')
  | none => (false, r)

/-- One call on a region. A new main position and a shift are never refused. -/
def call (r : Region R) : ShapeOp → Bool × Region R
  | .setMain p => (true, r.setMain p)
  | .setVice p => r.answered (r.setVice? p)
  | .resize op ds => r.answered (r.resize? op ds)
  | .shift d => (true, r.shift d)

theorem Reached.answered (hr : r.Reached) {o : Option (Region R)}
    (ho : ∀ r', o = some r' → r'.Reached) : (r.answered o).2.Reached := by
  cases o with
  | none => exact hr
  | some r' => exact ho r' rfl

/-- A call leads from a reached region to a reached one. -/
theorem Reached.call (hr : r.Reached) (op : ShapeOp) : (r.call op).2.Reached := by
  cases op with
  | setMain p => exact .setMain p hr
  | setVice p => exact hr.answered fun r' h => .setVice p hr h
  | resize op ds => exact hr.answered fun r' h => .resize op ds hr h
  | shift d => exact .shift d hr

theorem call_refused {op : ShapeOp} (h : (r.call op).1 = false) : (r.call op).2 = r := by
  have hanswered {o : Option (Region R)} (ho : (r.answered o).1 = false) : (r.answered o).2 = r := by
    cases o with
    | none => rfl
    | some r' => exact nomatch ho
  cases op with
  | setMain p => exact nomatch h
  | setVice p => exact hanswered h
  | resize op ds => exact hanswered h
  | shift d => exact nomatch h

/-- The region after calls, accepted or refused. -/
def calls (r : Region R) (ops : List ShapeOp) : Region R := ops.foldl (fun r op => (r.call op).2) r

theorem Reached.calls (hr : r.Reached) (ops : List ShapeOp) : (r.calls ops).Reached := by
  induction ops generalizing r with
  | nil => exact hr
  | cons op ops ih => exact ih (hr.call op)

/-- **What a region keeps is never out of date**: whatever is called on a region that is made from a
position, a box or a stored region, its box is the smallest one around what defines it, its half-spaces
are those of its points, and a call that is refused leaves all of it as it was. -/
theorem Reached.never_stale (hr : r.Reached) (ops : List ShapeOp) :
    (r.calls ops).shape.Current ∧
      ∀ op, ((r.calls ops).call op).1 = false → ((r.calls ops).call op).2 = r.calls ops :=
  ⟨(hr.calls ops).sound.current (hr.calls ops).filled, fun _ => call_refused⟩

/-- A prism over a triangle that has grown and moved: one vertex was refused, because it was there
already, and so is another one now. -/
theorem never_stale_triangle :
    let r : Region ℝ := ofPoint .polygon 0 .zero
    let ops : List ShapeOp := [.setVice ⟨3, 2, 0⟩, .setVice ⟨0, -1, 3⟩, .setVice ⟨3, 9, 0⟩,
      .resize .expand [⟨0, 5, 0⟩], .shift ⟨1, 1, 1⟩]
    r.Reached ∧ (r.calls ops).box = ⟨⟨1, 0, 1⟩, ⟨4, 8, 4⟩⟩ ∧ (r.calls ops).shape.Current ∧
      ((r.calls ops).call (.setVice ⟨4, 9, 1⟩)).1 = false ∧
      ((r.calls ops).call (.setVice ⟨4, 9, 1⟩)).2 = r.calls ops := by
  intro r ops
  have hr : r.Reached := .ofPoint .polygon 0 .zero
  obtain ⟨hcurrent, hrefused⟩ := hr.never_stale ops
  exact ⟨hr, rfl, hcurrent, rfl, hrefused _ rfl⟩

end Region

end VoxelEdit
