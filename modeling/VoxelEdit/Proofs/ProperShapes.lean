import VoxelEdit.Proofs.FilledShapes

/-!
# Proper shapes

A shape is stored by what defines it, and a reader refuses what defines none: a radius that is not
finite or below one half, an outline without a vertex, a hull without points or with too many.

* `StoredRadius`: radii that are stored as they are, with what the arithmetic of spheres keeps.
* `Shape.Proper`: what a reader asks of a shape. Everything that makes or changes a shape keeps it,
  as long as a sphere grows or shrinks by less than its 32 bits hold (`SmallChanges`).
* `Region.Fit`: regions with a sound and proper shape. They are all that the program makes.
-/

namespace VoxelEdit

open Number

/-! ## Radii -/

/-- Radii that a double holds, and whose arithmetic keeps a finite radius of at least one half so
as far as the operations of a sphere need it. -/
class StoredRadius (R : Type) extends Radius R where
  /-- The bits of a radius. -/
  bits : R → UInt64
  toTag_eq (r : R) : toTag r = .double (bits r)
  ofTag?_toTag (r : R) : ofTag? (toTag r) = some r
  half_finite : isFinite half = true
  half_not_lt : lt half half = false
  sixth_finite {n : Int} : 0 ≤ n → n ≤ 3 * (maxWord32 + 1) → isFinite (sixth n) = true
  plusHalf_not_lt {r d : R} : lt r half = false → lt r d = true → lt (plusHalf d) half = false
  plus_not_lt {r : R} {n : Int} : isFinite r = true → lt r half = false → 0 ≤ n → n ≤ maxInt32 →
    lt (plus r n) half = false
  minus_finite {r : R} {n : Int} : isFinite r = true → lt r half = false → 0 ≤ n → n ≤ maxInt32 →
    isFinite (plus r (-n)) = true

/-- A radius that a sphere can have. -/
def ProperRadius {R : Type} [Radius R] (r : R) : Prop :=
  Radius.isFinite r = true ∧ Radius.lt r Radius.half = false

/-- Changes whose magnitudes sum up to less than 32 bits hold, along each axis. -/
def SmallChanges (ds : List Pos) : Prop :=
  ∀ axis ∈ [Pos.x, Pos.y, Pos.z], (ds.map fun d => (axis d).natAbs).sum ≤ maxWord32

namespace Sphere

variable {R : Type}

/-- Half of a small sum has no sign. -/
theorem evenChange?_range {ds : List Pos} (hds : SmallChanges ds) {d : Int}
    (h : evenChange? ds = some d) : 0 ≤ d ∧ d ≤ maxInt32 := by
  have hsum : (ds.foldl (fun n d => n + d.x.natAbs) 0) ≤ maxWord32 := by
    have := hds Pos.x (by simp)
    rwa [List.sum_eq_foldl, List.foldl_map] at this
  unfold evenChange? at h
  dsimp only at h
  split at h
  · have hd := Option.some.inj h
    -- half of a sum of 32 bits has 31, so cutting it to 32 bits with a sign changes nothing
    rw [Int.bmod_eq_of_le (by omega) (by simp only [maxWord32] at hsum ⊢; omega)] at hd
    simp only [maxWord32] at hsum
    exact ⟨by omega, show d ≤ 2147483647 by omega⟩
  · exact nomatch h

variable [StoredRadius R] {s t : Sphere R}

theorem half_proper : ProperRadius (Radius.half : R) :=
  ⟨StoredRadius.half_finite, StoredRadius.half_not_lt⟩

/-- A finite radius is proper once it is raised to one half. -/
theorem atLeastHalf_proper {r : R} (hr : Radius.isFinite r = true) :
    ProperRadius (atLeastHalf r) := by
  unfold atLeastHalf
  split
  · exact half_proper
  · rename_i h
    exact ⟨hr, Bool.eq_false_iff.2 h⟩

theorem isFinite_of_fits {c : Pos} {r : R} (h : fits c r = true) : Radius.isFinite r = true := by
  unfold fits at h
  rw [Bool.and_eq_true] at h
  exact h.1

theorem setVice?_proper (hs : ProperRadius s.radius) {p : Pos} (h : s.setVice? p = some t) :
    ProperRadius t.radius := by
  obtain ⟨hlt, hfits, rfl⟩ := setVice?_eq_some h
  exact ⟨isFinite_of_fits hfits, StoredRadius.plusHalf_not_lt hs.2 hlt⟩

theorem grow?_proper (hs : ProperRadius s.radius) {ds : List Pos} (hds : SmallChanges ds)
    (h : s.grow? ds = some t) : ProperRadius t.radius := by
  obtain ⟨d, hd, h⟩ := Option.bind_eq_some_iff.1 h
  obtain ⟨h0, h1⟩ := evenChange?_range hds hd
  dsimp only at h
  split at h
  · rename_i hfits
    rw [← Option.some.inj h]
    exact ⟨isFinite_of_fits hfits, StoredRadius.plus_not_lt hs.1 hs.2 h0 h1⟩
  · exact nomatch h

theorem shrink?_proper (hs : ProperRadius s.radius) {ds : List Pos} (hds : SmallChanges ds)
    (h : s.shrink? ds = some t) : ProperRadius t.radius := by
  obtain ⟨d, hd, h⟩ := Option.bind_eq_some_iff.1 h
  obtain ⟨h0, h1⟩ := evenChange?_range hds hd
  rw [← Option.some.inj h]
  exact atLeastHalf_proper (StoredRadius.minus_finite hs.1 hs.2 h0 h1)

end Sphere

/-! ## Shapes -/

namespace Shape

variable {R : Type} [StoredRadius R] {s s' : Shape R}

/-- What a reader asks of what defines a shape. -/
def Proper : Shape R → Prop
  | .cuboid _ | .expand _ => True
  | .sphere s => ProperRadius s.radius
  | .polygon g => g.points ≠ []
  | .convex c => c.points ≠ [] ∧ c.points.length ≤ Convex.maxPoints

/-- Changes that a shape is resized by: those of a sphere must be small. -/
def Takes : Shape R → List Pos → Prop
  | .sphere _, ds => SmallChanges ds
  | _, _ => True

/-- A filled shape is proper, unless it is a sphere with an improper radius. -/
theorem Filled.proper_of_radius (hs : s.Filled)
    (hradius : ∀ t, s = .sphere t → ProperRadius t.radius) : s.Proper := by
  cases s with
  | sphere t => exact hradius t rfl
  | cuboid c | expand e => trivial
  | polygon g | convex c => exact hs

theorem Filled.proper (hs : s.Filled) (hkind : s.kind ≠ .sphere) : s.Proper :=
  hs.proper_of_radius fun _ ht => absurd (congrArg kind ht) hkind

theorem Proper.filled (hs : s.Proper) : s.Filled := by
  cases s with
  | cuboid c | expand e | sphere t => trivial
  | polygon g | convex c => exact hs

theorem ofPoint_proper (k : RegionKind) (p : Pos) : (ofPoint k p : Shape R).Proper := by
  cases k with
  | sphere => exact Sphere.half_proper
  | cuboid | expand | polygon | convex => exact (ofPoint_filled _ p).proper nofun

theorem ofBox_proper (k : RegionKind) {b : Box} (h0 : 0 ≤ b.dims.sum)
    (h1 : b.dims.sum ≤ 3 * (maxWord32 + 1)) : (ofBox k b : Shape R).Proper := by
  cases k with
  | sphere => exact Sphere.atLeastHalf_proper (StoredRadius.sixth_finite h0 h1)
  | cuboid | expand | polygon | convex => exact (ofBox_filled _ b).proper nofun

theorem setMain_proper (p : Pos) : (s.setMain p).Proper := by
  cases s with
  | cuboid c => trivial
  | expand e => exact ofPoint_proper .expand p
  | sphere s => exact ofPoint_proper .sphere p
  | polygon g => exact ofPoint_proper .polygon p
  | convex c => exact ofPoint_proper .convex p

theorem Proper.setVice (hs : s.Proper) {p : Pos} (h : s.setVice? p = some s') : s'.Proper := by
  cases s with
  | cuboid c | expand e =>
    rw [← Option.some.inj h]
    trivial
  | sphere s =>
    obtain ⟨t, ht, rfl⟩ := Option.map_eq_some_iff.1 h
    exact Sphere.setVice?_proper hs ht
  | polygon g | convex c =>
    obtain ⟨t, -, rfl⟩ := Option.map_eq_some_iff.1 h
    exact (setVice_filled h).proper nofun

theorem Proper.resize (hs : s.Proper) {op : Resize} {ds : List Pos} (hds : s.Takes ds)
    (h : s.resize? op ds = some s') : s'.Proper := by
  cases s with
  | cuboid c | expand e =>
    rw [← Option.some.inj h]
    trivial
  | sphere s =>
    cases op with
    | expand =>
      obtain ⟨t, ht, rfl⟩ := Option.map_eq_some_iff.1 h
      exact Sphere.grow?_proper hs hds ht
    | contract =>
      obtain ⟨t, ht, rfl⟩ := Option.map_eq_some_iff.1 h
      exact Sphere.shrink?_proper hs hds ht
  | polygon g =>
    have hfilled : (polygon g : Shape R).Filled := hs
    obtain ⟨t, -, rfl⟩ := Option.map_eq_some_iff.1 h
    exact (hfilled.resize h).proper nofun
  | convex c => exact nomatch h

theorem Proper.shift (hs : s.Proper) (d : Pos) : (s.shift d).Proper := by
  cases s with
  | cuboid c | expand e => trivial
  | sphere s => exact hs
  | polygon g =>
    have hfilled : (polygon g : Shape R).Filled := hs
    exact (hfilled.shift d).proper nofun
  | convex c =>
    have hfilled : (convex c : Shape R).Filled := hs
    exact (hfilled.shift d).proper nofun

/-- **A shape that is read is proper.** -/
theorem shapeOf_proper {k : RegionKind} {fields : Nbt.Fields}
    (h : Region.shapeOf k fields = .ok s) : s.Proper := by
  cases k with
  | sphere =>
    obtain ⟨t, ht, h⟩ := bind_eq_ok h
    obtain ⟨center, radius, rfl, hradius, -⟩ := Region.sphereOf_eq_ok ht
    rw [← Except.ok.inj h]
    exact hradius
  | cuboid | expand | polygon | convex =>
    obtain ⟨t, -, ht⟩ := bind_eq_ok h
    obtain rfl := Except.ok.inj ht
    exact (shapeOf_filled h).proper nofun

end Shape

/-! ## Regions -/

/-- A region as the program makes it: its box is the one of its shape, and a reader takes it. -/
structure Region.Fit {R : Type} [StoredRadius R] (r : Region R) : Prop where
  sound : r.shape.Sound
  proper : r.shape.Proper

namespace Region

variable {R : Type} [StoredRadius R] {r r' : Region R}

theorem ofPoint_fit (k : RegionKind) (dim : Int) (p : Pos) : (ofPoint k dim p : Region R).Fit :=
  ⟨Shape.ofPoint_sound k p, Shape.ofPoint_proper k p⟩

theorem setMain_fit (r : Region R) (p : Pos) : (r.setMain p).Fit :=
  ⟨Shape.setMain_sound _ p, Shape.setMain_proper p⟩

theorem Fit.setVice (hr : r.Fit) {p : Pos} (h : r.setVice? p = some r') : r'.Fit := by
  obtain ⟨s, hs, rfl⟩ := Option.map_eq_some_iff.1 h
  exact ⟨hr.sound.setVice hs, hr.proper.setVice hs⟩

theorem Fit.resize (hr : r.Fit) {op : Resize} {ds : List Pos} (hds : r.shape.Takes ds)
    (h : r.resize? op ds = some r') : r'.Fit := by
  obtain ⟨s, hs, rfl⟩ := Option.map_eq_some_iff.1 h
  exact ⟨Shape.resize_sound hs, hr.proper.resize hds hs⟩

theorem Fit.shift (hr : r.Fit) (d : Pos) : (r.shift d).Fit :=
  ⟨hr.sound.shift d, hr.proper.shift d⟩

/-- **A region that is read is fit.** -/
theorem fit_of_ofFields? {fields : Nbt.Fields} (h : ofFields? fields = .ok r) : r.Fit := by
  obtain ⟨id, -, h⟩ := bind_eq_ok h
  split at h
  · exact nomatch h
  · obtain ⟨dim, -, h⟩ := bind_eq_ok h
    obtain ⟨s, hs, h⟩ := bind_eq_ok h
    rw [← Except.ok.inj h]
    exact ⟨shapeOf_sound hs, Shape.shapeOf_proper hs⟩

end Region

end VoxelEdit
