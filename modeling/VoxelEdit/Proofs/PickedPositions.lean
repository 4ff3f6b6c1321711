import VoxelEdit.Proofs.ConsistentSelection
import VoxelEdit.Proofs.ConvexHull
import VoxelEdit.Proofs.CurrentRegion
import VoxelEdit.Proofs.OutlineSides

/-!
# Picked positions stay selected

* `Picked`: what has been picked so far, by the calls and their answers alone: the latest main
  position, the vice positions that were accepted since, and the latest vice position.
* `Shape.Keeps`: how a shape holds a position that was picked: in its box, within its radius, as a
  vertex or as a point of its hull. What is kept is contained (`Keeps.contains`), also by an outline
  that crosses itself and by a hull that is flat, and is kept when more is picked (`Keeps.setVice`).
* `Region.picks_selected`: **whatever is picked, a region that grows by its picks contains all of
  them since its main position, and a cuboid its two corners.**
-/

namespace VoxelEdit

/-! ## Picks -/

/-- A position that is picked as the main or as a vice position. -/
inductive Pick where
  | main (p : Pos)
  | vice (p : Pos)

/-- The call that a pick makes. -/
def Pick.op : Pick → ShapeOp
  | .main p => .setMain p
  | .vice p => .setVice p

/-- What has been picked: the latest main position, the vice positions that were accepted since it,
and the latest vice position. -/
structure Picked where
  main : Pos
  since : List Pos
  vice : Pos

namespace Picked

/-- The position that a region begins with stands for both hands. -/
def first (p : Pos) : Picked := ⟨p, [], p⟩

/-- What has been picked after one more pick, which was accepted or not. -/
def record (k : Picked) (accepted : Bool) : Pick → Picked
  | .main p => ⟨p, [], k.vice⟩
  | .vice p => ⟨k.main, if accepted then p :: k.since else k.since, p⟩

/-- The positions that a region which grows by its picks is made of. -/
def all (k : Picked) : List Pos := k.main :: k.since

end Picked

/-! ## Kept positions -/

theorem Convex.contains_point {points : List Pos} {p : Pos} (hp : p ∈ points) :
    (ofPoints points).contains p = true := by
  have hne : points ≠ [] := List.ne_nil_of_mem hp
  have hbox : (envelope points).contains p = true := envelope_contains hp
  have hplanes : ∀ h ∈ Hull.ofPoints points, h.holds p = true := by
    intro h hh
    exact HalfSpace.holds_iff.2 ((Hull.ofPoints_encloses hne).holds h hh p hp)
  unfold contains ofPoints
  simp [hbox, List.all_eq_true.2 hplanes]

namespace Shape

variable {s s' : Shape ℝ} {p q : Pos}

/-- How a shape holds a position that was picked. -/
def Keeps : Shape ℝ → Pos → Prop
  | .cuboid c, q => c.box.contains q = true
  | .expand e, q => e.box.contains q = true
  | .sphere s, q => √(q.distanceSquared s.center : ℝ) ≤ s.radius
  | .polygon g, q => (g.minY ≤ q.y ∧ q.y ≤ g.maxY) ∧ ⟨q.x, q.z⟩ ∈ g.points
  | .convex c, q => q ∈ c.points

/-- **What is kept is contained.** -/
theorem Keeps.contains (hs : s.Sound) (hq : s.Keeps q) : s.contains q = true := by
  cases s with
  | cuboid c => exact hq
  | expand e => exact hq
  | sphere s =>
    have hcovers : ((q.distanceSquared s.center : ℤ) : ℝ) ≤ s.radius ^ 2 := (Real.sqrt_le_iff.1 hq).2
    exact decide_eq_true hcovers
  | polygon g =>
    obtain ⟨⟨hlo, hhi⟩, hmem⟩ := hq
    have hinside := Polygon.encloses_vertex hmem
    show g.contains q = true
    simp [Polygon.contains, hlo, hhi, hinside]
  | convex c =>
    have hc : c = .ofPoints c.points := hs
    have hmem : q ∈ c.points := hq
    show c.contains q = true
    rw [hc]
    exact Convex.contains_point hmem

theorem distance_self (p : Pos) : √((p.distanceSquared p : ℤ) : ℝ) = 0 := by
  simp [Pos.distanceSquared]

/-- **A new main position is kept.** -/
theorem setMain_keeps (s : Shape ℝ) (p : Pos) : (s.setMain p).Keeps p := by
  have hpoint : (Box.point p).contains p = true := by
    rw [Box.contains_iff]
    simp [Box.point]
  cases s with
  | cuboid c =>
    have hspan := (Box.span_hugs p c.vice).contains List.mem_cons_self
    exact hspan
  | expand e => exact hpoint
  | sphere s =>
    show √((p.distanceSquared p : ℤ) : ℝ) ≤ 1 / 2
    rw [distance_self]
    norm_num
  | polygon g => exact ⟨⟨le_rfl, le_rfl⟩, List.mem_singleton_self _⟩
  | convex c => exact List.mem_singleton_self p

/-- An accepted vice position makes a sphere greater, so that it reaches the position. -/
theorem sphere_setVice {c t : Sphere ℝ} (h : c.setVice? p = some t) :
    t.center = c.center ∧ c.radius ≤ t.radius ∧ √(p.distanceSquared t.center : ℝ) ≤ t.radius := by
  obtain ⟨hlt, -, rfl⟩ := Sphere.setVice?_eq_some h
  have hbeyond : c.radius < √(p.distanceSquared c.center : ℝ) := of_decide_eq_true hlt
  have hradius : √(p.distanceSquared c.center : ℝ) ≤ √(p.distanceSquared c.center : ℝ) + 1 / 2 := by
    linarith
  exact ⟨rfl, hbeyond.le.trans hradius, hradius⟩

/-- **An accepted vice position is kept.** -/
theorem setVice_keeps (h : s.setVice? p = some s') : s'.Keeps p := by
  cases s with
  | cuboid c =>
    obtain rfl := Option.some.inj h
    have hspan := (Box.span_hugs c.main p).contains (List.mem_cons_of_mem _ List.mem_cons_self)
    exact hspan
  | expand e =>
    obtain rfl := Option.some.inj h
    show (e.box.cover p).contains p = true
    rw [Box.contains_iff]
    simp only [Box.cover, Pos.inf, Pos.sup]
    omega
  | sphere c =>
    obtain ⟨t, ht, rfl⟩ := Option.map_eq_some_iff.1 h
    exact (sphere_setVice ht).2.2
  | polygon g =>
    obtain ⟨t, ht, rfl⟩ := Option.map_eq_some_iff.1 h
    obtain rfl := Polygon.setVice?_eq_some ht
    refine ⟨?_, List.mem_append_right _ (List.mem_singleton_self _)⟩
    simp only [Polygon.make]
    omega
  | convex c =>
    obtain ⟨t, ht, rfl⟩ := Option.map_eq_some_iff.1 h
    obtain ⟨-, rfl⟩ := Convex.setVice?_eq_some ht
    exact List.mem_append_right _ (List.mem_singleton_self _)

/-- **What was kept is kept when a vice position is accepted**, except by a cuboid. -/
theorem Keeps.setVice (hkind : s.kind ≠ .cuboid) (hq : s.Keeps q) (h : s.setVice? p = some s') :
    s'.Keeps q := by
  cases s with
  | cuboid c => exact absurd rfl hkind
  | expand e =>
    obtain rfl := Option.some.inj h
    have hcovered : ([p].foldl Box.cover e.box).contains q = true :=
      Box.contains_foldl_cover (.inl hq)
    exact hcovered
  | sphere c =>
    obtain ⟨t, ht, rfl⟩ := Option.map_eq_some_iff.1 h
    obtain ⟨hcenter, hgreater, -⟩ := sphere_setVice ht
    have hq' : √(q.distanceSquared c.center : ℝ) ≤ c.radius := hq
    show √(q.distanceSquared t.center : ℝ) ≤ t.radius
    rw [hcenter]
    exact hq'.trans hgreater
  | polygon g =>
    obtain ⟨t, ht, rfl⟩ := Option.map_eq_some_iff.1 h
    obtain ⟨hends, hmem⟩ := hq
    obtain rfl := Polygon.setVice?_eq_some ht
    -- the ends only move apart, and vertices are only added
    refine ⟨?_, List.mem_append_left _ hmem⟩
    simp only [Polygon.make]
    omega
  | convex c =>
    obtain ⟨t, ht, rfl⟩ := Option.map_eq_some_iff.1 h
    obtain ⟨-, rfl⟩ := Convex.setVice?_eq_some ht
    exact List.mem_append_left _ hq

/-- What a shape holds of its picks: a cuboid has its corners at the latest ones of both hands, any
other shape keeps all positions that it is made of. -/
def Holds : Shape ℝ → Picked → Prop
  | .cuboid c, k => c = .ofCorners k.main k.vice
  | s, k => ∀ q ∈ k.all, s.Keeps q

theorem holds_iff_keeps (hkind : s.kind ≠ .cuboid) (k : Picked) : s.Holds k ↔ ∀ q ∈ k.all, s.Keeps q := by
  cases s with
  | cuboid c => exact absurd rfl hkind
  | expand e | sphere s | polygon g | convex c => exact Iff.rfl

variable {k : Picked}

theorem ofPoint_holds (kind : RegionKind) (p : Pos) : (ofPoint kind p : Shape ℝ).Holds (.first p) := by
  have hkeeps : ∀ t : Shape ℝ, ∀ q ∈ (Picked.first p).all, (t.setMain p).Keeps q := by
    intro t q hq
    rw [List.mem_singleton.1 hq]
    exact setMain_keeps t p
  cases kind with
  | cuboid => rfl
  | expand => exact hkeeps (ofPoint .expand p)
  | sphere => exact hkeeps (ofPoint .sphere p)
  | polygon => exact hkeeps (ofPoint .polygon p)
  | convex => exact hkeeps (ofPoint .convex p)

/-- A new main position is all that is held, except by a cuboid. -/
theorem Holds.setMain (hs : s.Holds k) (accepted : Bool) (p : Pos) :
    (s.setMain p).Holds (k.record accepted (.main p)) := by
  by_cases hkind : s.kind = .cuboid
  · cases s with
    | cuboid c =>
      have hc : c = .ofCorners k.main k.vice := hs
      have hvice : c.vice = k.vice := congrArg Cuboid.vice hc
      exact congrArg (Cuboid.ofCorners p) hvice
    | expand e | sphere s | polygon g | convex c => exact nomatch hkind
  · have hkind' : (s.setMain p).kind ≠ .cuboid := by
      rw [setMain_kind]
      exact hkind
    rw [holds_iff_keeps hkind']
    intro q hq
    rw [List.mem_singleton.1 hq]
    exact setMain_keeps s p

theorem Holds.setVice (hs : s.Holds k) (h : s.setVice? p = some s') :
    s'.Holds (k.record true (.vice p)) := by
  by_cases hkind : s.kind = .cuboid
  · cases s with
    | cuboid c =>
      obtain rfl := Option.some.inj h
      have hc : c = .ofCorners k.main k.vice := hs
      have hmain : c.main = k.main := congrArg Cuboid.main hc
      exact congrArg (Cuboid.ofCorners · p) hmain
    | expand e | sphere s | polygon g | convex c => exact nomatch hkind
  · have hkind' : s'.kind ≠ .cuboid := by
      rw [setVice?_kind h]
      exact hkind
    rw [holds_iff_keeps hkind] at hs
    rw [holds_iff_keeps hkind']
    intro q hq
    -- the new position is one of them, the others were held before
    rcases List.mem_cons.1 hq with rfl | hq
    · exact (hs _ List.mem_cons_self).setVice hkind h
    · rcases List.mem_cons.1 hq with rfl | hq
      · exact setVice_keeps h
      · exact (hs _ (List.mem_cons_of_mem _ hq)).setVice hkind h

/-- A refused position need not be held, and a cuboid refuses none. -/
theorem Holds.refused (hs : s.Holds k) (h : s.setVice? p = none) :
    s.Holds (k.record false (.vice p)) := by
  cases s with
  | cuboid c => exact nomatch h
  | expand e | sphere s | polygon g | convex c => exact hs

/-- A cuboid contains both of its corners. -/
theorem Holds.corners (hs : s.Holds k) (hkind : s.kind = .cuboid) :
    s.contains k.main = true ∧ s.contains k.vice = true := by
  cases s with
  | cuboid c =>
    have hc : c = .ofCorners k.main k.vice := hs
    have hhugs : c.box.Hugs [k.main, k.vice] := by
      rw [hc]
      exact Box.span_hugs k.main k.vice
    exact ⟨hhugs.contains List.mem_cons_self,
      hhugs.contains (List.mem_cons_of_mem _ List.mem_cons_self)⟩
  | expand e | sphere s | polygon g | convex c => exact nomatch hkind

end Shape

/-! ## Runs -/

namespace Region

section

variable {R : Type} [Radius R]

/-- One pick on a region, with its record. -/
def pick (s : Region R × Picked) (p : Pick) : Region R × Picked :=
  ((s.1.call p.op).2, s.2.record (s.1.call p.op).1 p)

/-- Picks on a region that begins with one position. -/
def picked (kind : RegionKind) (dim : Int) (first : Pos) (picks : List Pick) : Region R × Picked :=
  picks.foldl pick (ofPoint kind dim first, .first first)

end

/-- What holds of a region and the record of its picks. -/
structure Selects (kind : RegionKind) (s : Region ℝ × Picked) : Prop where
  reached : s.1.Reached
  kind_eq : s.1.kind = kind
  holds : s.1.shape.Holds s.2

variable {kind : RegionKind} {s : Region ℝ × Picked}

/-- **One pick keeps what has been picked.** -/
theorem Selects.pick (hs : Selects kind s) (p : Pick) : Selects kind (pick s p) := by
  obtain ⟨r, k⟩ := s
  have hreached : (r.call p.op).2.Reached := hs.reached.call p.op
  cases p with
  | main p =>
    exact ⟨hreached, (Shape.setMain_kind r.shape p).trans hs.kind_eq, hs.holds.setMain true p⟩
  | vice p =>
    cases h : r.shape.setVice? p with
    | none =>
      have hcall : r.call (.setVice p) = (false, r) := by
        simp [call, answered, setVice?, h]
      have hpick : Region.pick (r, k) (.vice p) = (r, k.record false (.vice p)) := by
        simp [Region.pick, Pick.op, hcall]
      rw [hpick]
      exact ⟨hs.reached, hs.kind_eq, hs.holds.refused h⟩
    | some t =>
      have hcall : r.call (.setVice p) = (true, { r with shape := t }) := by
        simp [call, answered, setVice?, h]
      have hpick : Region.pick (r, k) (.vice p) =
          ({ r with shape := t }, k.record true (.vice p)) := by
        simp [Region.pick, Pick.op, hcall]
      have hnext : ({ r with shape := t } : Region ℝ).Reached := by
        rw [Pick.op, hcall] at hreached
        exact hreached
      rw [hpick]
      exact ⟨hnext, (Shape.setVice?_kind h).trans hs.kind_eq, hs.holds.setVice h⟩

/-- **Any picks do.** -/
theorem Selects.foldl (hs : Selects kind s) (picks : List Pick) :
    Selects kind (picks.foldl Region.pick s) := by
  induction picks generalizing s with
  | nil => exact hs
  | cons p picks ih => exact ih (hs.pick p)

/-- **Picked positions stay selected.** Whatever is picked after the position that a region begins
with, the region contains the latest main position. If it is a cuboid, it contains the latest vice
position too, and otherwise every vice position that was accepted since the main one. -/
theorem picks_selected (kind : RegionKind) (dim : Int) (first : Pos) (picks : List Pick) :
    let r : Region ℝ := (picked kind dim first picks).1
    let k : Picked := (picked (R := ℝ) kind dim first picks).2
    r.kind = kind ∧ r.contains k.main = true ∧ (kind = .cuboid → r.contains k.vice = true) ∧
      (kind ≠ .cuboid → ∀ q ∈ k.since, r.contains q = true) := by
  intro r k
  have hstart : Selects kind (ofPoint kind dim first, .first first) :=
    ⟨.ofPoint kind dim first, Shape.ofPoint_kind kind first, Shape.ofPoint_holds kind first⟩
  have hall : Selects kind (r, k) := hstart.foldl picks
  have hsound : r.shape.Sound := hall.reached.sound
  have hkind : r.shape.kind = kind := hall.kind_eq
  by_cases hcuboid : kind = .cuboid
  · obtain ⟨hmain, hvice⟩ := Shape.Holds.corners hall.holds (hkind.trans hcuboid)
    exact ⟨hkind, hmain, fun _ => hvice, fun hno => absurd hcuboid hno⟩
  · have hkeeps : ∀ q ∈ k.all, r.shape.Keeps q := by
      have hno : r.shape.kind ≠ .cuboid := by
        rw [hkind]
        exact hcuboid
      exact (Shape.holds_iff_keeps hno k).1 hall.holds
    have hcontains : ∀ q ∈ k.all, r.contains q = true := fun q hq => (hkeeps q hq).contains hsound
    exact ⟨hkind, hcontains _ List.mem_cons_self, fun hyes => absurd hyes hcuboid,
      fun _ q hq => hcontains q (List.mem_cons_of_mem _ hq)⟩

end Region

end VoxelEdit
