import VoxelEdit.Proofs.DoubleRadius
import VoxelEdit.Proofs.SessionReach

/-!
# Stored regions are canonical

* `Shape.envelope`: the box that belongs to what defines a shape. The box of a sound shape is this
  one (`Shape.Sound.box_eq`).
* `Region.representable_of_ofFields?`: a reader takes numbers of 32 bits only, so that whatever it
  accepts is made of such numbers, the corners of the box included.
* `Region.stored_canonical`: **every region that is made is read back from its fields, and what is
  read from any fields is regular and is read back again.** So one reading brings any fields into
  the form in which the region itself is written.
-/

namespace VoxelEdit

open Number Nbt

/-! ## The box of what defines a shape -/

namespace Shape

variable {R : Type} [Radius R] {s : Shape R}

/-- The box that belongs to what defines a shape. An expanding box is defined by its corners. -/
def envelope : Shape R → Box
  | .cuboid c => .span c.main c.vice
  | .expand e => .span e.box.min e.box.max
  | .sphere s => Sphere.around s.center s.radius
  | .polygon g => Polygon.envelope g.points g.minY g.maxY
  | .convex c => Convex.envelope c.points

theorem Sound.box_eq (hs : s.Sound) : s.box = s.envelope := by
  cases s with
  | cuboid c => exact hs
  | expand e => exact (Box.span_min_max hs).symm
  | sphere s => exact hs
  | polygon g => exact hs.2
  | convex c => exact congrArg Convex.box hs

end Shape

/-! ## Numbers of 32 bits -/

theorem narrow_toInt (v : Int32) : Narrow v.toInt :=
  ⟨v.le_toInt, Int.le_of_lt_add_one v.toInt_lt⟩

theorem Narrow.of_mem_map_toInt {vs : List Int32} {v : Int} (h : v ∈ vs.map Int32.toInt) :
    Narrow v := by
  obtain ⟨w, -, rfl⟩ := List.mem_map.1 h
  exact narrow_toInt w

theorem Box.InWorld.cover {b : Box} (hb : b.InWorld) {p : Pos} (hp : p.InWorld) :
    (b.cover p).InWorld :=
  ⟨⟨hb.min.x.inf hp.x, hb.min.y.inf hp.y, hb.min.z.inf hp.z⟩,
    ⟨hb.max.x.sup hp.x, hb.max.y.sup hp.y, hb.max.z.sup hp.z⟩⟩

/-- A box that covers positions of the world one after the other stays in the world. -/
theorem Box.InWorld.foldl_cover {b : Box} (hb : b.InWorld) {ps : List Pos}
    (hps : ∀ p ∈ ps, p.InWorld) : (ps.foldl Box.cover b).InWorld := by
  induction ps generalizing b with
  | nil => exact hb
  | cons p ps ih =>
    have hp := hps p List.mem_cons_self
    exact ih (hb.cover hp) fun q hq => hps q (List.mem_cons_of_mem p hq)

theorem Polygon.envelope_inWorld {points : List Column} {lo hi : Int} (hne : points ≠ [])
    (hpoints : ∀ c ∈ points, Narrow c.x ∧ Narrow c.z) (hlo : Narrow lo) (hhi : Narrow hi) :
    (envelope points lo hi).InWorld := by
  cases points with
  | nil => exact absurd rfl hne
  | cons c cs =>
    obtain ⟨hx, hz⟩ := hpoints c List.mem_cons_self
    rw [envelope_cons]
    refine (Box.span_inWorld ⟨hx, hlo, hz⟩ ⟨hx, hhi, hz⟩).foldl_cover ?_
    intro p hp
    obtain ⟨d, hd, rfl⟩ := List.mem_map.1 hp
    obtain ⟨hdx, hdz⟩ := hpoints d (List.mem_cons_of_mem c hd)
    exact ⟨hdx, hlo, hdz⟩

theorem Convex.envelope_inWorld {points : List Pos} (hne : points ≠ [])
    (hpoints : ∀ p ∈ points, p.InWorld) : (envelope points).InWorld := by
  cases points with
  | nil => exact absurd rfl hne
  | cons p ps =>
    have hp := hpoints p List.mem_cons_self
    have hpoint : (Box.point p).InWorld := ⟨hp, hp⟩
    exact hpoint.foldl_cover fun q hq => hpoints q (List.mem_cons_of_mem p hq)

/-- A sphere that fits has its box in the world. -/
theorem Sphere.around_inWorld {R : Type} [Radius R] {center : Pos} {radius : R}
    (h : fits center radius = true) : (around center radius).InWorld := by
  unfold fits inWorld at h
  simp only [Bool.and_eq_true, List.all_cons, List.all_nil, Bool.and_true, decide_eq_true_eq] at h
  obtain ⟨-, -, ⟨hx, hx'⟩, ⟨hy, hy'⟩, ⟨hz, hz'⟩⟩ := h
  exact Box.span_inWorld ⟨hx', hy', hz'⟩ ⟨hx, hy, hz⟩

/-! ## What is read -/

theorem Pos.inWorld_of_ofTag? {tag : Tag} {p : Pos} (h : Pos.ofTag? tag = .ok p) : p.InWorld := by
  -- a coordinate that stands in a compound is a number of its own
  have hcomponent {fields : Fields} {name : String} {v : Int}
      (hv : component? fields name = .ok v) : Narrow v := by
    unfold component? Fields.int? at hv
    split at hv
    · rename_i w hw
      split at hw
      · rw [← Except.ok.inj hv, ← Option.some.inj hw]
        exact narrow_toInt _
      · exact nomatch hw
    · exact nomatch hv
  unfold Pos.ofTag? at h
  split at h
  · rw [← Except.ok.inj h]
    exact ⟨narrow_toInt _, narrow_toInt _, narrow_toInt _⟩
  · obtain ⟨x, hx, h⟩ := bind_eq_ok h
    obtain ⟨y, hy, h⟩ := bind_eq_ok h
    obtain ⟨z, hz, h⟩ := bind_eq_ok h
    rw [← Except.ok.inj h]
    exact ⟨hcomponent hx, hcomponent hy, hcomponent hz⟩
  · exact nomatch h

namespace Region

section Fields

variable {fields : Fields} {name : String}

theorem narrow_of_intField {v : Int} (h : intField fields name = .ok v) : Narrow v := by
  obtain ⟨tag, -, h⟩ := bind_eq_ok h
  split at h
  · rw [← Except.ok.inj h]
    exact narrow_toInt _
  · exact nomatch h

theorem narrow_of_intsField {vs : List Int} (h : intsField fields name = .ok vs) :
    ∀ v ∈ vs, Narrow v := by
  obtain ⟨tag, -, h⟩ := bind_eq_ok h
  split at h
  · rw [← Except.ok.inj h]
    exact fun v hv => Narrow.of_mem_map_toInt hv
  · exact nomatch h

theorem inWorld_of_posField {p : Pos} (h : posField fields name = .ok p) : p.InWorld := by
  obtain ⟨tag, -, h⟩ := bind_eq_ok h
  split at h
  · rename_i q hq
    rw [← Except.ok.inj h]
    exact Pos.inWorld_of_ofTag? hq
  · exact nomatch h

theorem inWorld_of_boxField {b : Box} (h : boxField fields name = .ok b) : b.InWorld := by
  obtain ⟨tag, -, h⟩ := bind_eq_ok h
  split at h
  · rename_i c hc
    rw [← Except.ok.inj h]
    unfold Box.ofTag? at hc
    split at hc
    · rw [← Except.ok.inj hc]
      exact Box.span_inWorld ⟨narrow_toInt _, narrow_toInt _, narrow_toInt _⟩
        ⟨narrow_toInt _, narrow_toInt _, narrow_toInt _⟩
    · exact nomatch hc
  · exact nomatch h

end Fields

/-- The columns in a flat list are made of its numbers. -/
theorem mem_columns {flat : List Int} {c : Column} (h : c ∈ columns flat) :
    c.x ∈ flat ∧ c.z ∈ flat := by
  induction flat using columns.induct with
  | case1 x z rest ih =>
    rcases List.mem_cons.1 h with rfl | h
    · exact ⟨List.mem_cons_self, List.mem_cons_of_mem _ List.mem_cons_self⟩
    · obtain ⟨hx, hz⟩ := ih h
      exact ⟨List.mem_cons_of_mem _ (List.mem_cons_of_mem _ hx),
        List.mem_cons_of_mem _ (List.mem_cons_of_mem _ hz)⟩
  | case2 flat hshort =>
    rw [columns.eq_2 flat hshort] at h
    exact nomatch h

/-- The positions in a flat list are made of its numbers. -/
theorem mem_triples {flat : List Int} {p : Pos} (h : p ∈ triples flat) :
    p.x ∈ flat ∧ p.y ∈ flat ∧ p.z ∈ flat := by
  induction flat using triples.induct with
  | case1 x y z rest ih =>
    rcases List.mem_cons.1 h with rfl | h
    · simp
    · obtain ⟨hx, hy, hz⟩ := ih h
      have hrest {v : Int} (hv : v ∈ rest) : v ∈ x :: y :: z :: rest :=
        List.mem_cons_of_mem _ (List.mem_cons_of_mem _ (List.mem_cons_of_mem _ hv))
      exact ⟨hrest hx, hrest hy, hrest hz⟩
  | case2 flat hshort =>
    rw [triples.eq_2 flat hshort] at h
    exact nomatch h

variable {R : Type} [Radius R]

/-- **A shape that is read is made of numbers of 32 bits.** -/
theorem shapeOf_representable {k : RegionKind} {fields : Fields} {s : Shape R}
    (h : shapeOf k fields = .ok s) : s.Representable := by
  cases k with
  | cuboid =>
    obtain ⟨c, hc, h⟩ := bind_eq_ok h
    obtain ⟨main, hmain, hc⟩ := bind_eq_ok hc
    obtain ⟨vice, hvice, hc⟩ := bind_eq_ok hc
    rw [← Except.ok.inj h, ← Except.ok.inj hc]
    have hm := inWorld_of_posField hmain
    have hv := inWorld_of_posField hvice
    exact ⟨Box.span_inWorld hm hv, hm, hv⟩
  | expand =>
    obtain ⟨b, hb, h⟩ := bind_eq_ok h
    rw [← Except.ok.inj h]
    exact ⟨inWorld_of_boxField hb, trivial⟩
  | sphere =>
    obtain ⟨s, hs, h⟩ := bind_eq_ok h
    obtain ⟨center, radius, rfl, -, hcenter, hfits⟩ := sphereOf_eq_ok hs
    rw [← Except.ok.inj h]
    exact ⟨Sphere.around_inWorld hfits, inWorld_of_posField hcenter⟩
  | polygon =>
    obtain ⟨g, hg, h⟩ := bind_eq_ok h
    obtain ⟨flat, minY, maxY, rfl, hne, heven, -, hflat, hmin, hmax⟩ := polygonOf_eq_ok hg
    rw [← Except.ok.inj h]
    have hnumbers := narrow_of_intsField hflat
    have hcolumns : ∀ c ∈ columns flat, Narrow c.x ∧ Narrow c.z := by
      intro c hc
      obtain ⟨hx, hz⟩ := mem_columns hc
      exact ⟨hnumbers _ hx, hnumbers _ hz⟩
    have hlo := narrow_of_intField hmin
    have hhi := narrow_of_intField hmax
    have hvertex := Shape.columns_ne_nil hne heven
    exact ⟨Polygon.envelope_inWorld hvertex hcolumns hlo hhi, hcolumns, hlo, hhi⟩
  | convex =>
    obtain ⟨c, hc, h⟩ := bind_eq_ok h
    obtain ⟨flat, rfl, hne, hthree, -, hflat⟩ := convexOf_eq_ok hc
    rw [← Except.ok.inj h]
    have hnumbers := narrow_of_intsField hflat
    have hpoints : ∀ p ∈ triples flat, p.InWorld := by
      intro p hp
      obtain ⟨hx, hy, hz⟩ := mem_triples hp
      exact ⟨hnumbers _ hx, hnumbers _ hy, hnumbers _ hz⟩
    exact ⟨Convex.envelope_inWorld (Shape.triples_ne_nil hne hthree) hpoints, hpoints⟩

/-- **A region that is read is made of numbers of 32 bits.** -/
theorem representable_of_ofFields? {fields : Fields} {r : Region R}
    (h : ofFields? fields = .ok r) : r.Representable := by
  obtain ⟨id, -, h⟩ := bind_eq_ok h
  split at h
  · exact nomatch h
  · obtain ⟨dim, hdim, h⟩ := bind_eq_ok h
    obtain ⟨s, hs, h⟩ := bind_eq_ok h
    rw [← Except.ok.inj h]
    exact ⟨narrow_of_intField hdim, shapeOf_representable hs⟩

/-- What is asked of a region beyond its numbers: its box is in order and belongs to what defines
its shape, an outline has vertices and ends in order, a hull has from one to sixty-four points, and
a sphere fits around its center. -/
structure Regular (r : Region R) : Prop where
  ordered : r.box.Ordered
  box : r.box = r.shape.envelope
  shape : match r.shape with
    | .cuboid _ | .expand _ => True
    | .sphere s => Sphere.fits s.center s.radius = true
    | .polygon g => g.minY ≤ g.maxY ∧ 1 ≤ g.points.length
    | .convex c => 1 ≤ c.points.length ∧ c.points.length ≤ 64

end Region

namespace Region

variable {R : Type} [StoredRadius R]

/-- A region that is fit and made of numbers of 32 bits is regular. -/
theorem Fit.regular {r : Region R} (hr : r.Fit) (hw : r.Representable) : r.Regular where
  ordered := hr.sound.ordered
  box := hr.sound.box_eq
  shape := by
    obtain ⟨dim, shape⟩ := r
    obtain ⟨hsound, hproper⟩ := hr
    cases shape with
    | cuboid c => trivial
    | expand e => trivial
    | sphere s => exact fits_of_inWorld hsound hproper.1 hw.shape.1
    | polygon g => exact ⟨hsound.1, List.length_pos_iff.2 hproper⟩
    | convex c => exact ⟨List.length_pos_iff.2 hproper.1, hproper.2⟩

/-- **Stored regions are canonical.** Every region that is made, from a position or a box and by any
operations, is read back from its fields, as long as its numbers are numbers of 32 bits. And
whatever fields a region is read from, it is regular and is read back from its own fields. -/
theorem stored_canonical :
    (∀ r : Region R, r.Made → r.Representable → ofFields? r.toFields = .ok r) ∧
      ∀ (fields : Fields) (r : Region R), ofFields? fields = .ok r →
        r.Regular ∧ ofFields? r.toFields = .ok r := by
  constructor
  · intro r hr hw
    have hfit := hr.fit
    exact ofFields?_toFields hfit.sound hfit.proper hw
  · intro fields r h
    have hfit := fit_of_ofFields? h
    have hw := representable_of_ofFields? h
    exact ⟨hfit.regular hw, ofFields?_toFields hfit.sound hfit.proper hw⟩

/-- A triangle between two heights: a corner is picked, and then two more, one of them higher. -/
theorem stored_canonical_triangle :
    let r : Region Float := ⟨-1, .polygon (.make [⟨0, 0⟩, ⟨10, 0⟩, ⟨0, 10⟩] 0 3)⟩
    r.Made ∧ r.Representable ∧ ofFields? r.toFields = .ok r ∧ r.Regular := by
  intro r
  have hmade : r.Made := by
    refine .change (.setVice ⟨0, 0, 10⟩) (r := ⟨-1, .polygon (.make [⟨0, 0⟩, ⟨10, 0⟩] 0 3)⟩) ?_
      trivial rfl
    exact .change (.setVice ⟨10, 3, 0⟩) (.ofPoint .polygon (-1) ⟨0, 0, 0⟩) trivial rfl
  have hpoints : ∀ c ∈ ([⟨0, 0⟩, ⟨10, 0⟩, ⟨0, 10⟩] : List Column), Narrow c.x ∧ Narrow c.z := by
    unfold Narrow
    decide
  have hlo : Narrow 0 := by unfold Narrow; decide
  have hhi : Narrow 3 := by unfold Narrow; decide
  have hbox := Polygon.envelope_inWorld (List.cons_ne_nil _ _) hpoints hlo hhi
  have hw : r.Representable := ⟨by unfold Narrow; decide, hbox, hpoints, hlo, hhi⟩
  obtain ⟨hmake, hread⟩ := stored_canonical (R := Float)
  have hback := hmake r hmade hw
  exact ⟨hmade, hw, hback, (hread _ r hback).1⟩

end Region

end VoxelEdit
