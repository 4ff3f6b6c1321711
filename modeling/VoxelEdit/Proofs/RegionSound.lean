import Mathlib.Algebra.Order.Round
import Mathlib.Analysis.Real.Sqrt
import VoxelEdit.Number.Binary
import VoxelEdit.Proofs.Outcomes
import VoxelEdit.Proofs.PolygonBox
import VoxelEdit.Region.Tags

/-!
# Regions and their boxes

* `ExactRadius`: radii that are exact numbers, so that a sphere is a ball.
* `Shape.Sound`: the box of a shape is the one that belongs to what defines the shape. Everything
  that makes or changes a region keeps this (`Region.Reached.sound`).
* `Shape.Sound.contains_box`: **a sound shape contains nothing outside of its box.**
-/

namespace VoxelEdit

open Number

/-! ## Exact radii -/

/-- Radii that are real numbers, as far as the positions of a sphere depend on them. -/
class ExactRadius (R : Type) extends Radius R where
  /-- The number that a radius is. -/
  value : R → ℝ
  covers_iff (r : R) (d : ℤ) : covers r d = true ↔ (d : ℝ) ≤ value r ^ 2
  ceil_eq (r : R) : ceil r = ⌈value r⌉

/-- The number that a datum stands for, if it is one. -/
noncomputable def Number.Datum.toReal? : Datum → Option ℝ
  | .finite negative significand scale =>
    some ((if negative then -1 else 1) * significand * 2 ^ scale)
  | _ => none

open Classical in
/-- The real numbers. They are read from tags exactly, and shown and stored rounded down. -/
noncomputable instance : ExactRadius ℝ where
  beq a b := a = b
  half := 1 / 2
  plus r n := r + n
  plusHalf r := r + 1 / 2
  ofSquare d := √d
  sixth n := n / 6
  lt a b := a < b
  covers r d := (d : ℝ) ≤ r ^ 2
  isFinite _ := true
  ceil r := ⌈r⌉
  text r := toString ⌊r⌋
  toTag r := .ofFloat (Float.ofInt ⌊r⌋)
  ofTag?
    | .double bits => (double.decode bits.toNat).toReal?
    | .float bits => (single.decode bits.toNat).toReal?
    | _ => none
  value r := r
  covers_iff _ _ := decide_eq_true_iff
  ceil_eq _ := rfl

/-- What a ball reaches along an axis does not go past the radius rounded up. -/
theorem abs_le_abs_ceil {v : ℝ} {k : ℤ} (h : (k : ℝ) ^ 2 ≤ v ^ 2) : |k| ≤ |⌈v⌉| := by
  have hkv : ((|k| : ℤ) : ℝ) ≤ |v| := by
    rw [Int.cast_abs]
    exact sq_le_sq.1 h
  rcases le_total 0 v with hv | hv
  · rw [abs_of_nonneg hv] at hkv
    have h1 : |k| ≤ ⌈v⌉ := Int.cast_le.1 (hkv.trans (Int.le_ceil v))
    exact h1.trans (le_abs_self _)
  · -- rounded up, a negative radius comes nearer to zero, but does not pass a whole number
    rw [abs_of_nonpos hv] at hkv
    have h1 : ⌈v⌉ ≤ -|k| := by
      rw [Int.ceil_le]
      push_cast at hkv ⊢
      linarith
    have h2 := neg_le_abs ⌈v⌉
    omega

theorem Sphere.contains_box {R : Type} [ExactRadius R] {s : Sphere R}
    (hbox : s.box = around s.center s.radius) {p : Pos} (h : s.contains p = true) :
    s.box.contains p = true := by
  have hcover := (ExactRadius.covers_iff _ _).1 h
  set v := ExactRadius.value s.radius with hv
  -- each axis contributes no more than the whole distance
  have axis : ∀ k : ℤ, k ^ 2 ≤ p.distanceSquared s.center → |k| ≤ |⌈v⌉| := by
    intro k hk
    have hk' : (k : ℝ) ^ 2 ≤ (p.distanceSquared s.center : ℝ) := by exact_mod_cast hk
    exact abs_le_abs_ceil (hk'.trans hcover)
  have hx := axis (p.x - s.center.x) (by unfold Pos.distanceSquared; nlinarith)
  have hy := axis (p.y - s.center.y) (by unfold Pos.distanceSquared; nlinarith)
  have hz := axis (p.z - s.center.z) (by unfold Pos.distanceSquared; nlinarith)
  rw [hbox, Box.contains_iff]
  simp only [around, ExactRadius.ceil_eq, Box.span, Pos.inf, Pos.sup, Pos.sub_x, Pos.sub_y,
    Pos.sub_z, Pos.add_x, Pos.add_y, Pos.add_z, Pos.splat_x, Pos.splat_y, Pos.splat_z, ← hv]
  rw [abs_le] at hx hy hz
  rcases abs_cases ⌈v⌉ with ⟨hc, -⟩ | ⟨hc, -⟩ <;> rw [hc] at hx hy hz <;> omega

/-! ## Accepted vice positions -/

theorem Sphere.setVice?_eq_some {R : Type} [Radius R] {s t : Sphere R} {p : Pos}
    (h : s.setVice? p = some t) :
    Radius.lt s.radius (Radius.ofSquare (p.distanceSquared s.center) : R) = true ∧
      fits s.center t.radius = true ∧
      t = make s.center (Radius.plusHalf (Radius.ofSquare (p.distanceSquared s.center))) := by
  unfold setVice? at h
  dsimp only at h
  split at h
  · rename_i hc
    rw [Bool.and_eq_true] at hc
    obtain rfl := Option.some.inj h
    exact ⟨hc.1, hc.2, rfl⟩
  · exact nomatch h

theorem Polygon.setVice?_eq_some {g t : Polygon} {p : Pos} (h : g.setVice? p = some t) :
    t = make (g.points ++ [⟨p.x, p.z⟩]) (min g.minY p.y) (max g.maxY p.y) := by
  unfold setVice? at h
  split at h
  · exact nomatch h
  · exact (Option.some.inj h).symm

theorem Convex.setVice?_eq_some {c t : Convex} {p : Pos} (h : c.setVice? p = some t) :
    c.points.length < maxPoints ∧ t = ofPoints (c.points ++ [p]) := by
  unfold setVice? at h
  split at h
  · exact nomatch h
  · rename_i hc
    rw [Bool.or_eq_true, not_or, decide_eq_true_eq] at hc
    exact ⟨not_le.1 hc.1, (Option.some.inj h).symm⟩

/-! ## Sound shapes -/

theorem Convex.envelope_ordered (points : List Pos) : (envelope points).Ordered := by
  cases points with
  | nil => exact Box.point_ordered _
  | cons p ps => exact (Box.point_ordered p).foldl_cover ps

namespace Shape

variable {R : Type} [Radius R] {s s' : Shape R}

/-- The box is the one that belongs to what defines the shape. -/
def Sound : Shape R → Prop
  | .cuboid c => c.box = .span c.main c.vice
  | .expand e => e.box.Ordered
  | .sphere s => s.box = Sphere.around s.center s.radius
  | .polygon g => g.minY ≤ g.maxY ∧ g.box = Polygon.envelope g.points g.minY g.maxY
  | .convex c => c = .ofPoints c.points

theorem Sound.ordered (hs : s.Sound) : s.box.Ordered := by
  cases s with
  | cuboid c =>
    have hbox : (cuboid c : Shape R).box = Box.span c.main c.vice := hs
    rw [hbox]
    exact Box.span_ordered _ _
  | expand e => exact hs
  | sphere s =>
    have hbox : (sphere s).box = Sphere.around s.center s.radius := hs
    rw [hbox]
    exact Box.span_ordered _ _
  | polygon g =>
    have hbox : (polygon g : Shape R).box = Polygon.envelope g.points g.minY g.maxY := hs.2
    rw [hbox]
    exact Polygon.envelope_ordered _ hs.1
  | convex c =>
    have hbox : (convex c : Shape R).box = Convex.envelope c.points := congrArg Convex.box hs
    rw [hbox]
    exact Convex.envelope_ordered _

/-- **A sound shape contains nothing outside of its box**, if its radius is exact. -/
theorem Sound.contains_box {R : Type} [ExactRadius R] {s : Shape R} (hs : s.Sound) {p : Pos}
    (h : s.contains p = true) : s.box.contains p = true := by
  cases s with
  | cuboid c => exact h
  | expand e => exact h
  | sphere s => exact Sphere.contains_box hs h
  | polygon g =>
    exact Polygon.contains_box hs.2 h
  | convex c =>
    unfold contains Convex.contains at h
    rw [Bool.and_eq_true] at h
    exact h.1

theorem ofPoint_sound (k : RegionKind) (p : Pos) : (ofPoint k p : Shape R).Sound := by
  cases k with
  | cuboid => rfl
  | expand => exact Box.point_ordered p
  | sphere => rfl
  | polygon => exact ⟨le_rfl, rfl⟩
  | convex => rfl

theorem ofBox_sound (k : RegionKind) {b : Box} (hb : b.Ordered) : (ofBox k b : Shape R).Sound := by
  cases k with
  | cuboid => rfl
  | expand => exact hb
  | sphere => rfl
  | polygon => exact ⟨hb.y, rfl⟩
  | convex => rfl

theorem setMain_sound (s : Shape R) (p : Pos) : (s.setMain p).Sound := by
  cases s with
  | cuboid c => rfl
  | expand e => exact ofPoint_sound .expand p
  | sphere s => exact ofPoint_sound .sphere p
  | polygon g => exact ofPoint_sound .polygon p
  | convex c => exact ofPoint_sound .convex p

theorem Sound.setVice (hs : s.Sound) {p : Pos} (h : s.setVice? p = some s') : s'.Sound := by
  cases s with
  | cuboid c =>
    rw [← Option.some.inj h]
    rfl
  | expand e =>
    rw [← Option.some.inj h]
    exact Box.Ordered.cover hs p
  | sphere s =>
    obtain ⟨t, ht, rfl⟩ := Option.map_eq_some_iff.1 h
    rw [(Sphere.setVice?_eq_some ht).2.2]
    rfl
  | polygon g =>
    obtain ⟨t, ht, rfl⟩ := Option.map_eq_some_iff.1 h
    rw [Polygon.setVice?_eq_some ht]
    -- the ends move apart only
    have hends := hs.1
    exact ⟨by simp only [Polygon.make]; omega, rfl⟩
  | convex c =>
    obtain ⟨t, ht, rfl⟩ := Option.map_eq_some_iff.1 h
    rw [(Convex.setVice?_eq_some ht).2]
    rfl

theorem resize_sound {op : Resize} {ds : List Pos} (h : s.resize? op ds = some s') : s'.Sound := by
  cases s with
  | cuboid c =>
    rw [← Option.some.inj h]
    rfl
  | expand e =>
    rw [← Option.some.inj h]
    exact Box.span_ordered _ _
  | sphere s =>
    cases op with
    | expand =>
      obtain ⟨t, ht, rfl⟩ := Option.map_eq_some_iff.1 h
      obtain ⟨d, -, ht⟩ := Option.bind_eq_some_iff.1 ht
      simp only at ht
      split at ht
      · rw [← Option.some.inj ht]
        rfl
      · exact nomatch ht
    | contract =>
      obtain ⟨t, ht, rfl⟩ := Option.map_eq_some_iff.1 h
      obtain ⟨d, -, ht⟩ := Option.bind_eq_some_iff.1 ht
      rw [← Option.some.inj ht]
      rfl
  | polygon g =>
    obtain ⟨t, ht, rfl⟩ := Option.map_eq_some_iff.1 h
    obtain ⟨ends, -, ht⟩ := Option.bind_eq_some_iff.1 ht
    simp only at ht
    split at ht
    · rename_i hends
      rw [← Option.some.inj ht]
      exact ⟨hends, rfl⟩
    · exact nomatch ht
  | convex c => exact nomatch h

theorem Sound.shift (hs : s.Sound) (d : Pos) : (s.shift d).Sound := by
  cases s with
  | cuboid c => rfl
  | expand e => exact Box.Ordered.offset hs d
  | sphere s => rfl
  | polygon g => exact ⟨by simpa [Polygon.shift, Polygon.make] using hs.1, rfl⟩
  | convex c => rfl

end Shape

/-! ## Stored regions -/

namespace Region

variable {R : Type} [Radius R]

/-- **What a sphere that is read is made of.** -/
theorem sphereOf_eq_ok {fields : Nbt.Fields} {s : Sphere R} (h : sphereOf fields = .ok s) :
    ∃ center radius, s = .make center radius ∧ (Radius.isFinite radius = true ∧
      Radius.lt radius Radius.half = false) ∧ posField fields "center" = .ok center ∧
      Sphere.fits center radius = true := by
  obtain ⟨center, hcenter, h⟩ := bind_eq_ok h
  obtain ⟨tag, -, h⟩ := bind_eq_ok h
  split at h
  · exact nomatch h
  · rename_i radius _
    obtain ⟨hradius, h⟩ := of_check h
    obtain ⟨hfits, h⟩ := of_check h
    rw [Bool.or_eq_true, not_or, Bool.not_eq_true', Bool.not_eq_false, Bool.not_eq_true] at hradius
    rw [Bool.not_eq_true', Bool.not_eq_false] at hfits
    exact ⟨center, radius, (Except.ok.inj h).symm, hradius, hcenter, hfits⟩

/-- **What a polygon that is read is made of.** -/
theorem polygonOf_eq_ok {fields : Nbt.Fields} {g : Polygon} (h : polygonOf fields = .ok g) :
    ∃ flat minY maxY, g = .make (columns flat) minY maxY ∧ flat ≠ [] ∧ flat.length % 2 = 0 ∧
      minY ≤ maxY ∧ intsField fields "points" = .ok flat ∧ intField fields "minY" = .ok minY ∧
      intField fields "maxY" = .ok maxY := by
  obtain ⟨flat, hpoints, h⟩ := bind_eq_ok h
  obtain ⟨hflat, h⟩ := of_check h
  obtain ⟨minY, hmin, h⟩ := bind_eq_ok h
  obtain ⟨maxY, hmax, h⟩ := bind_eq_ok h
  obtain ⟨hends, h⟩ := of_check h
  rw [Bool.or_eq_true, not_or, List.isEmpty_iff, decide_eq_true_eq, not_not] at hflat
  exact ⟨flat, minY, maxY, (Except.ok.inj h).symm, hflat.1, hflat.2, not_lt.1 hends, hpoints, hmin,
    hmax⟩

/-- **What a convex region that is read is made of.** -/
theorem convexOf_eq_ok {fields : Nbt.Fields} {c : Convex} (h : convexOf fields = .ok c) :
    ∃ flat, c = .ofPoints (triples flat) ∧ flat ≠ [] ∧ flat.length % 3 = 0 ∧
      (triples flat).length ≤ Convex.maxPoints ∧ intsField fields "points" = .ok flat := by
  obtain ⟨flat, hpoints, h⟩ := bind_eq_ok h
  obtain ⟨hflat, h⟩ := of_check h
  obtain ⟨hcount, h⟩ := of_check h
  rw [Bool.or_eq_true, not_or, List.isEmpty_iff, decide_eq_true_eq, not_not] at hflat
  exact ⟨flat, (Except.ok.inj h).symm, hflat.1, hflat.2, not_lt.1 hcount, hpoints⟩

theorem boxField_eq_ok {fields : Nbt.Fields} {name : String} {b : Box}
    (h : boxField fields name = .ok b) : b.Ordered := by
  obtain ⟨tag, -, h⟩ := bind_eq_ok h
  split at h
  · rename_i b' hb
    rw [← Except.ok.inj h]
    unfold Box.ofTag? at hb
    split at hb
    · rw [← Except.ok.inj hb]
      exact Box.span_ordered _ _
    · exact nomatch hb
  · exact nomatch h

/-- A shape that is read is sound. -/
theorem shapeOf_sound {k : RegionKind} {fields : Nbt.Fields} {s : Shape R}
    (h : shapeOf k fields = .ok s) : s.Sound := by
  cases k with
  | cuboid =>
    obtain ⟨c, hc, h⟩ := bind_eq_ok h
    obtain ⟨main, -, hc⟩ := bind_eq_ok hc
    obtain ⟨vice, -, hc⟩ := bind_eq_ok hc
    rw [← Except.ok.inj h, ← Except.ok.inj hc]
    rfl
  | expand =>
    obtain ⟨b, hb, h⟩ := bind_eq_ok h
    rw [← Except.ok.inj h]
    exact boxField_eq_ok hb
  | sphere =>
    obtain ⟨s, hs, h⟩ := bind_eq_ok h
    obtain ⟨center, radius, rfl, -⟩ := sphereOf_eq_ok hs
    rw [← Except.ok.inj h]
    rfl
  | polygon =>
    obtain ⟨g, hg, h⟩ := bind_eq_ok h
    obtain ⟨flat, minY, maxY, rfl, -, -, hends, -⟩ := polygonOf_eq_ok hg
    rw [← Except.ok.inj h]
    exact ⟨hends, rfl⟩
  | convex =>
    obtain ⟨c, hc, h⟩ := bind_eq_ok h
    obtain ⟨flat, rfl, -⟩ := convexOf_eq_ok hc
    rw [← Except.ok.inj h]
    rfl

/-! ## Reached regions -/

/-- The regions that are made from a position, a box or a stored region and changed by any
operations. One that is refused has no effect. -/
inductive Reached : Region R → Prop
  | ofPoint (k : RegionKind) (dim : Int) (p : Pos) : Reached (ofPoint k dim p)
  | ofBox (k : RegionKind) (dim : Int) {b : Box} (hb : b.Ordered) : Reached (ofBox k dim b)
  | ofFields (fields : Nbt.Fields) {r : Region R} (h : ofFields? fields = .ok r) : Reached r
  | setMain {r : Region R} (p : Pos) : Reached r → Reached (r.setMain p)
  | setVice {r r' : Region R} (p : Pos) : Reached r → r.setVice? p = some r' → Reached r'
  | resize {r r' : Region R} (op : Resize) (ds : List Pos) : Reached r →
      r.resize? op ds = some r' → Reached r'
  | shift {r : Region R} (d : Pos) : Reached r → Reached (r.shift d)

/-- **Every region that is reached has a sound shape.** -/
theorem Reached.sound {r : Region R} (hr : r.Reached) : r.shape.Sound := by
  induction hr with
  | ofPoint k dim p => exact Shape.ofPoint_sound k p
  | ofBox k dim hb => exact Shape.ofBox_sound k hb
  | ofFields fields h =>
    obtain ⟨id, -, h⟩ := bind_eq_ok h
    split at h
    · exact nomatch h
    · obtain ⟨dim, -, h⟩ := bind_eq_ok h
      obtain ⟨s, hs, h⟩ := bind_eq_ok h
      rw [← Except.ok.inj h]
      exact shapeOf_sound hs
  | setMain p _ _ => exact Shape.setMain_sound _ p
  | setVice p _ h ih =>
    obtain ⟨s, hs, rfl⟩ := Option.map_eq_some_iff.1 h
    exact ih.setVice hs
  | resize op ds _ h _ =>
    obtain ⟨s, hs, rfl⟩ := Option.map_eq_some_iff.1 h
    exact Shape.resize_sound hs
  | shift d _ ih => exact ih.shift d

end Region

end VoxelEdit
