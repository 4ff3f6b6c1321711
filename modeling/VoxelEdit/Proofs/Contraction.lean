import VoxelEdit.Proofs.AxisEnds
import VoxelEdit.Proofs.SphereResize

/-!
# When shrinking selects nothing new

A region that is shrunk too far comes out at the other side: the ends of a box pass each other and
are put in order again. A prism is refused then, and a sphere stops at one block.

* `Shape.Narrows`: what a list of changes must be like for each shape. A cuboid has its ends in order
  after every change, so that they may turn back; an expanding box compares them once; a sphere only
  grows if the half of a sum of more than 32 bits comes out negative.
* `Shape.HasRoom`: changes that are no larger than the box along each axis, or fit 32 bits.
* `Region.contract_narrows_iff`: **shrinking selects no new position, exactly if the changes narrow
  the shape**, which they do if it has room for them. (A sphere below one block holds its center
  only, so that it may grow a little.)
-/

namespace VoxelEdit

open Number Ends

namespace Sphere

/-- A ball that grows by a whole number holds a new position on each axis. -/
theorem exists_new (center : Pos) {r r' : ℝ} (hr : 0 ≤ r) (h : r + 1 ≤ r') :
    ∃ p, (make center r').contains p = true ∧ (make center r).contains p = false := by
  have hdistance : (center + ⟨⌊r⌋ + 1, 0, 0⟩ : Pos).distanceSquared center = (⌊r⌋ + 1) ^ 2 := by
    unfold Pos.distanceSquared
    simp only [Pos.add_x, Pos.add_y, Pos.add_z]
    ring
  have hfloor := Int.floor_le r
  have hlt := Int.lt_floor_add_one r
  refine ⟨center + ⟨⌊r⌋ + 1, 0, 0⟩, ?_, ?_⟩
  · refine decide_eq_true (?_ : ((_ : ℤ) : ℝ) ≤ r' ^ 2)
    show (((center + ⟨⌊r⌋ + 1, 0, 0⟩ : Pos).distanceSquared center : ℤ) : ℝ) ≤ r' ^ 2
    rw [hdistance]
    push_cast
    exact pow_le_pow_left₀ (by linarith) (by linarith) 2
  · refine decide_eq_false (?_ : ¬ ((_ : ℤ) : ℝ) ≤ r ^ 2)
    show ¬ (((center + ⟨⌊r⌋ + 1, 0, 0⟩ : Pos).distanceSquared center : ℤ) : ℝ) ≤ r ^ 2
    rw [hdistance]
    push_cast
    exact not_le.2 (pow_lt_pow_left₀ (by linarith) hr two_ne_zero)

/-- A ball that shrinks, down to one half, holds no new position. One of a radius below one half
holds its center only, before and after. -/
theorem contains_of_shrunk {center : Pos} {r d : ℝ} (hd : 0 ≤ d) {p : Pos}
    (hp : (make center (max (1 / 2) (r - d))).contains p = true) :
    (make center r).contains p = true := by
  have hcovers : ((p.distanceSquared center : ℤ) : ℝ) ≤ (max (1 / 2) (r - d)) ^ 2 :=
    of_decide_eq_true hp
  refine decide_eq_true (?_ : ((p.distanceSquared center : ℤ) : ℝ) ≤ r ^ 2)
  rcases le_or_gt (1 / 2) r with hr | hr
  · have hle : max (1 / 2) (r - d) ≤ r := max_le hr (by linarith)
    exact hcovers.trans (pow_le_pow_left₀ (le_max_of_le_left (by norm_num)) hle 2)
  · rw [max_eq_left (by linarith)] at hcovers
    have hlt : p.distanceSquared center < 1 := by
      have hquarter : ((p.distanceSquared center : ℤ) : ℝ) < (1 : ℤ) :=
        hcovers.trans_lt (by norm_num)
      exact Int.cast_lt.1 hquarter
    have hzero : ((p.distanceSquared center : ℤ) : ℝ) ≤ (0 : ℤ) :=
      Int.cast_le.2 (Int.lt_add_one_iff.1 hlt)
    exact hzero.trans ((Int.cast_zero).trans_le (sq_nonneg r))

end Sphere

/-! ## Which changes narrow a shape -/

namespace Shape

/-- The ends of an axis after they have been moved lie between the ends before. -/
def Inside (e before : Int × Int) : Prop := before.1 ≤ e.1 ∧ e.2 ≤ before.2

/-- Changes that shrink a shape to a part of it. -/
def Narrows : Shape ℝ → List Pos → Prop
  | .cuboid c, ds => ∀ axis, Inside
      (moveInOrder false (c.box.ends axis) (ds.map fun d => d.get axis)) (c.box.ends axis)
  | .expand e, ds => ∀ axis,
      rises (ds.map fun d => d.get axis) ≤ (e.box.ends axis).2 - (e.box.ends axis).1 ∧
        -falls (ds.map fun d => d.get axis) ≤ (e.box.ends axis).2 - (e.box.ends axis).1
  | .sphere _, ds => 0 ≤ Sphere.keptHalf ds
  | .polygon _, _ | .convex _, _ => True

/-- A shape has room for changes: a box for as much as it extends, a sphere for 32 bits. -/
def HasRoom : Shape ℝ → List Pos → Prop
  | .cuboid ⟨_, _, b⟩, ds | .expand ⟨b⟩, ds => ∀ axis,
      (ds.map fun d => |d.get axis|).sum ≤ (b.ends axis).2 - (b.ends axis).1
  | .sphere _, ds => SmallChanges ds
  | .polygon _, _ | .convex _, _ => True

/-- A shape that is no sphere below one block. -/
def AtLeastBlock (s : Shape ℝ) : Prop := ∀ t, s = .sphere t → Radius.half ≤ t.radius

variable {s s' : Shape ℝ} {ds : List Pos}

/-- What has room is narrowed. -/
theorem HasRoom.narrows (h : s.HasRoom ds) : s.Narrows ds := by
  -- along an axis, the changes are the rises and the falls together
  have apart (axis : Axis) : (ds.map fun d => |d.get axis|).sum =
      rises (ds.map fun d => d.get axis) - falls (ds.map fun d => d.get axis) := by
    rw [← sum_abs, List.map_map]
    rfl
  have hrise (axis : Axis) := rises_nonneg (ds.map fun d => d.get axis)
  have hfall (axis : Axis) := falls_nonpos (ds.map fun d => d.get axis)
  cases s with
  | cuboid c =>
    intro axis
    have hroom : (ds.map fun d => |d.get axis|).sum ≤
        (c.box.ends axis).2 - (c.box.ends axis).1 := h axis
    rw [apart] at hroom
    rw [moveInOrder_contract hroom]
    exact ⟨by linarith [hrise axis], by linarith [hfall axis]⟩
  | expand e =>
    intro axis
    have hroom : (ds.map fun d => |d.get axis|).sum ≤
        (e.box.ends axis).2 - (e.box.ends axis).1 := h axis
    rw [apart] at hroom
    exact ⟨by linarith [hfall axis], by linarith [hrise axis]⟩
  | sphere s =>
    have hsmall : Sphere.magnitude Pos.x ds ≤ maxWord32 := h Pos.x List.mem_cons_self
    have hhalf := (Sphere.keptHalf_eq_half_iff ds).2 hsmall
    show 0 ≤ Sphere.keptHalf ds
    omega
  | polygon g => trivial
  | convex c => trivial

/-- Ends that are moved once lie between the ends before, if neither passes the other end. -/
theorem inside_iff (e : Int × Int) (ds : List Int) :
    Inside (inOrder (moveAll false e ds)) e ↔ rises ds ≤ e.2 - e.1 ∧ -falls ds ≤ e.2 - e.1 := by
  have hrise := rises_nonneg ds
  have hfall := falls_nonpos ds
  rw [moveAll_contract, inOrder, Inside]
  dsimp only
  omega

theorem contract_cuboid {c : Cuboid} (hbox : c.box = .span c.main c.vice) (ds : List Pos) :
    (∀ p, (c.resize false ds).box.contains p = true → c.box.contains p = true) ↔
      Narrows (.cuboid c) ds := by
  have hordered : (c.resize false ds).box.Ordered := Box.span_ordered _ _
  rw [Box.subset_iff hordered]
  simp only [Cuboid.resize_ends hbox]
  rfl

theorem contract_expand (e : Expand) (ds : List Pos) :
    (∀ p, (e.resize false ds).box.contains p = true → e.box.contains p = true) ↔
      Narrows (.expand e) ds := by
  have hordered : (e.resize false ds).box.Ordered := Box.span_ordered _ _
  rw [Box.subset_iff hordered]
  simp only [Expand.resize_ends]
  exact forall_congr' fun axis => inside_iff (e.box.ends axis) _

theorem contract_sphere {c t : Sphere ℝ} (h : c.shrink? ds = some t)
    (hkept : 0 ≤ Sphere.keptHalf ds) {p : Pos} (hp : t.contains p = true) :
    c.contains p = true := by
  rw [Sphere.shrink?_eq_some h] at hp
  exact Sphere.contains_of_shrunk (Int.cast_nonneg hkept) hp

theorem kept_of_contract {c t : Sphere ℝ} (h : c.shrink? ds = some t) (hradius : 1 / 2 ≤ c.radius)
    (hall : ∀ p, t.contains p = true → c.contains p = true) : 0 ≤ Sphere.keptHalf ds := by
  by_contra hneg
  rw [Sphere.shrink?_eq_some h] at hall
  have hkept : ((Sphere.keptHalf ds : ℤ) : ℝ) ≤ -1 := by
    exact_mod_cast (by omega : Sphere.keptHalf ds ≤ -1)
  have hgrown : c.radius + 1 ≤ max (1 / 2) (c.radius - (Sphere.keptHalf ds : ℤ)) :=
    (by linarith : c.radius + 1 ≤ c.radius - (Sphere.keptHalf ds : ℤ)).trans (le_max_right _ _)
  obtain ⟨p, hnew, hold⟩ := Sphere.exists_new c.center (by linarith) hgrown
  have hc : c.contains p = false := hold
  rw [hall p hnew] at hc
  exact nomatch hc

theorem contract_polygon {g g' : Polygon} (h : g.resize? false ds = some g') {p : Pos}
    (hp : g'.contains p = true) : g.contains p = true := by
  obtain ⟨-, rfl⟩ := Polygon.resize?_eq_some h
  have hrise := rises_nonneg (ds.map Pos.y)
  have hfall := falls_nonpos (ds.map Pos.y)
  unfold Polygon.contains at hp ⊢
  simp only [moveAll_contract, Polygon.make, Bool.and_eq_true, decide_eq_true_eq] at hp ⊢
  exact ⟨⟨by omega, by omega⟩, hp.2⟩

/-- **A shape that is narrowed selects no new position.** -/
theorem Sound.contract (hs : s.Sound) (hnarrows : s.Narrows ds)
    (h : s.resize? .contract ds = some s') {p : Pos} (hp : s'.contains p = true) :
    s.contains p = true := by
  cases s with
  | cuboid c =>
    rw [← Option.some.inj h] at hp
    exact (contract_cuboid hs ds).2 hnarrows p hp
  | expand e =>
    rw [← Option.some.inj h] at hp
    exact (contract_expand e ds).2 hnarrows p hp
  | sphere c =>
    obtain ⟨t, ht, rfl⟩ := Option.map_eq_some_iff.1 h
    exact contract_sphere ht hnarrows hp
  | polygon g =>
    obtain ⟨g', hg, rfl⟩ := Option.map_eq_some_iff.1 h
    exact contract_polygon hg hp
  | convex c => exact nomatch h

/-- **A shape that selects no new position is narrowed**, unless it is a sphere below one block. -/
theorem Sound.narrows (hs : s.Sound) (hblock : s.AtLeastBlock)
    (h : s.resize? .contract ds = some s')
    (hall : ∀ p, s'.contains p = true → s.contains p = true) : s.Narrows ds := by
  cases s with
  | cuboid c =>
    rw [← Option.some.inj h] at hall
    exact (contract_cuboid hs ds).1 hall
  | expand e =>
    rw [← Option.some.inj h] at hall
    exact (contract_expand e ds).1 hall
  | sphere c =>
    obtain ⟨t, ht, rfl⟩ := Option.map_eq_some_iff.1 h
    exact kept_of_contract ht (hblock c rfl) hall
  | polygon g => trivial
  | convex c => trivial

end Shape

namespace Region

/-- **Shrinking a region selects no new position if the changes narrow its shape**, as they do if it
has room for them. Changes that do not narrow it select one, unless it is a sphere below one block. -/
theorem contract_narrows_iff {r r' : Region ℝ} {ds : List Pos} (hr : r.Reached)
    (h : r.resize? .contract ds = some r') :
    (r.shape.Narrows ds → ∀ p, r'.contains p = true → r.contains p = true) ∧
      (r.shape.HasRoom ds → r.shape.Narrows ds) ∧
      (r.shape.AtLeastBlock → ¬ r.shape.Narrows ds →
        ∃ p, r'.contains p = true ∧ r.contains p = false) := by
  obtain ⟨s, hs, rfl⟩ := Option.map_eq_some_iff.1 h
  refine ⟨fun hnarrows p hp => hr.sound.contract hnarrows hs hp, Shape.HasRoom.narrows,
    fun hblock hno => ?_⟩
  by_contra hnew
  refine hno (hr.sound.narrows hblock hs fun p hp => ?_)
  by_contra hold
  exact hnew ⟨p, hp, Bool.eq_false_iff.2 hold⟩

/-- A box of eleven blocks along each axis has room for a change by three and one by minus four. -/
theorem contract_narrows_iff_box :
    let r : Region ℝ := ofBox .cuboid 0 ⟨.zero, .splat 10⟩
    let ds : List Pos := [⟨3, 0, 0⟩, ⟨-4, 0, 0⟩]
    r.Reached ∧ r.shape.HasRoom ds ∧
      ∃ r', r.resize? .contract ds = some r' ∧ r'.box = ⟨⟨3, 0, 0⟩, ⟨6, 10, 10⟩⟩ ∧
        ∀ p, r'.contains p = true → r.contains p = true := by
  intro r ds
  obtain ⟨r', hcontract⟩ : ∃ r', r.resize? .contract ds = some r' := ⟨_, rfl⟩
  have hr : r.Reached := .ofBox .cuboid 0 ⟨by decide, by decide, by decide⟩
  have hroom : r.shape.HasRoom ds := by
    intro axis
    cases axis <;> decide
  obtain ⟨hnarrows, hnarrow, -⟩ := contract_narrows_iff hr hcontract
  have hbox : r'.box = ⟨⟨3, 0, 0⟩, ⟨6, 10, 10⟩⟩ := by
    rw [← Option.some.inj hcontract]
    rfl
  exact ⟨hr, hroom, r', hcontract, hbox, hnarrows (hnarrow hroom)⟩

/-- One block that is shrunk by five along an axis becomes six blocks: its ends pass each other. -/
theorem contract_turns_around :
    let r : Region ℝ := ofPoint .cuboid 0 .zero
    r.Reached ∧ ∃ r', r.resize? .contract [⟨5, 0, 0⟩] = some r' ∧ r'.contains ⟨3, 0, 0⟩ = true ∧
      r.contains ⟨3, 0, 0⟩ = false ∧ ¬ r.shape.Narrows [⟨5, 0, 0⟩] := by
  intro r
  refine ⟨.ofPoint .cuboid 0 .zero, _, rfl, rfl, rfl, fun hnarrows => ?_⟩
  exact absurd (hnarrows .x).2 (by decide)

end Region

end VoxelEdit
