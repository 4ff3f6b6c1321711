import VoxelEdit.Proofs.BinaryTags
import VoxelEdit.Proofs.ProperShapes

/-!
# Stored regions are read back

A region is written with every number cut to 32 bits and read by a reader that checks. So what is
written is read back if the numbers of the region are numbers of 32 bits (`Region.Representable`)
and its shape is sound and proper: `Region.ofFields?_toFields`. The tags of such a region fit into
the binary form if an outline is not too long for it (`Region.InWorld`, `Region.toFields_fits`).
-/

namespace VoxelEdit

open Number Nbt

/-! ## Numbers, positions and boxes -/

/-- A number that 32 bits hold with its sign. -/
def Narrow (v : Int) : Prop := minInt32 ≤ v ∧ v ≤ maxInt32

theorem Narrow.toInt_ofInt {v : Int} (h : Narrow v) : (Int32.ofInt v).toInt = v :=
  Int32.toInt_ofInt_of_le h.1 (Int.lt_of_le_of_lt h.2 (by decide))

theorem Narrow.inf {v w : Int} (hv : Narrow v) (hw : Narrow w) : Narrow (min v w) :=
  ⟨le_min hv.1 hw.1, (min_le_left v w).trans hv.2⟩

theorem Narrow.sup {v w : Int} (hv : Narrow v) (hw : Narrow w) : Narrow (max v w) :=
  ⟨hv.1.trans (le_max_left v w), max_le hv.2 hw.2⟩

/-- The list of whole numbers is read back from its cut form. -/
theorem map_toInt_ofInt {vs : List Int} (h : ∀ v ∈ vs, Narrow v) :
    (vs.map Int32.ofInt).map Int32.toInt = vs := by
  rw [List.map_map]
  exact (List.map_congr_left fun v hv => (h v hv).toInt_ofInt).trans (List.map_id _)

/-- A position with coordinates of 32 bits. -/
structure Pos.InWorld (p : Pos) : Prop where
  x : Narrow p.x
  y : Narrow p.y
  z : Narrow p.z

/-- A box with corners of 32 bits. -/
structure Box.InWorld (b : Box) : Prop where
  min : b.min.InWorld
  max : b.max.InWorld

/-- A site with numbers of 32 bits. -/
structure Site.InWorld (s : Site) : Prop where
  dim : Narrow s.dim
  pos : s.pos.InWorld

theorem Pos.ofTag?_toTag {p : Pos} (hp : p.InWorld) : Pos.ofTag? p.toTag = .ok p := by
  show Except.ok (⟨(Int32.ofInt p.x).toInt, (Int32.ofInt p.y).toInt,
    (Int32.ofInt p.z).toInt⟩ : Pos) = _
  rw [hp.x.toInt_ofInt, hp.y.toInt_ofInt, hp.z.toInt_ofInt]

theorem Box.span_min_max {b : Box} (hb : b.Ordered) : Box.span b.min b.max = b := by
  have hx := hb.x
  have hy := hb.y
  have hz := hb.z
  simp only [Box.span, Pos.inf, Pos.sup, min_eq_left hx, min_eq_left hy, min_eq_left hz,
    max_eq_right hx, max_eq_right hy, max_eq_right hz]

theorem Box.span_inWorld {p q : Pos} (hp : p.InWorld) (hq : q.InWorld) :
    (Box.span p q).InWorld :=
  ⟨⟨hp.x.inf hq.x, hp.y.inf hq.y, hp.z.inf hq.z⟩, ⟨hp.x.sup hq.x, hp.y.sup hq.y, hp.z.sup hq.z⟩⟩

theorem Box.ofTag?_toTag {b : Box} (hb : b.InWorld) (ho : b.Ordered) :
    Box.ofTag? b.toTag = .ok b := by
  show Except.ok (Box.span ⟨(Int32.ofInt b.min.x).toInt, (Int32.ofInt b.min.y).toInt,
    (Int32.ofInt b.min.z).toInt⟩ ⟨(Int32.ofInt b.max.x).toInt, (Int32.ofInt b.max.y).toInt,
    (Int32.ofInt b.max.z).toInt⟩) = _
  rw [hb.min.x.toInt_ofInt, hb.min.y.toInt_ofInt, hb.min.z.toInt_ofInt, hb.max.x.toInt_ofInt,
    hb.max.y.toInt_ofInt, hb.max.z.toInt_ofInt]
  exact congrArg Except.ok (Box.span_min_max ho)

theorem Site.ofTag?_toTag {s : Site} (hs : s.InWorld) : Site.ofTag? s.toTag = .ok s := by
  have hdim : (Fields.ofList [("dim", Tag.ofInt s.dim), ("pos", s.pos.toTag)]).get? "dim" =
      some (.ofInt s.dim) := Fields.get?_ofList _ _
  have hpos : (Fields.ofList [("dim", Tag.ofInt s.dim), ("pos", s.pos.toTag)]).get? "pos" =
      some s.pos.toTag := Fields.get?_ofList _ _
  unfold Site.ofTag? Site.toTag Fields.int?
  dsimp only
  rw [hdim, hpos]
  show (Pos.ofTag? s.pos.toTag >>= fun p => Except.ok (⟨(Int32.ofInt s.dim).toInt, p⟩ : Site)) = _
  rw [Pos.ofTag?_toTag hs.pos, hs.dim.toInt_ofInt]
  rfl

/-! ## Shapes and regions in the world -/

namespace Shape

variable {R : Type}

/-- All numbers of a shape are numbers of 32 bits, and its outline has no more than an array
holds. -/
def InWorld (s : Shape R) : Prop :=
  s.box.InWorld ∧ match s with
    | .cuboid c => c.main.InWorld ∧ c.vice.InWorld
    | .expand _ => True
    | .sphere s => s.center.InWorld
    | .polygon g => (∀ c ∈ g.points, Narrow c.x ∧ Narrow c.z) ∧ Narrow g.minY ∧ Narrow g.maxY ∧
      2 * g.points.length ≤ maxInt32.toNat
    | .convex c => ∀ p ∈ c.points, p.InWorld

/-- All numbers of a shape are numbers of 32 bits. -/
def Representable (s : Shape R) : Prop :=
  s.box.InWorld ∧ match s with
    | .cuboid c => c.main.InWorld ∧ c.vice.InWorld
    | .expand _ => True
    | .sphere s => s.center.InWorld
    | .polygon g => (∀ c ∈ g.points, Narrow c.x ∧ Narrow c.z) ∧ Narrow g.minY ∧ Narrow g.maxY
    | .convex c => ∀ p ∈ c.points, p.InWorld

theorem InWorld.representable {s : Shape R} (h : s.InWorld) : s.Representable := by
  cases s with
  | polygon g =>
    obtain ⟨hbox, hcolumns, hmin, hmax, -⟩ := h
    exact ⟨hbox, hcolumns, hmin, hmax⟩
  | cuboid c | expand e | sphere s | convex c => exact h

end Shape

/-- A region with numbers of 32 bits and an outline that an array holds. -/
structure Region.InWorld {R : Type} (r : Region R) : Prop where
  dim : Narrow r.dim
  shape : r.shape.InWorld

/-- A region with numbers of 32 bits. -/
structure Region.Representable {R : Type} (r : Region R) : Prop where
  dim : Narrow r.dim
  shape : r.shape.Representable

namespace Region

/-! ## Fields -/

theorem ok_bind {ε α β : Type} (a : α) (f : α → Except ε β) : (Except.ok a >>= f) = f a := rfl

section Reading

variable {fields : Fields} {name : String}

theorem tagField_eq {tag : Tag} (h : fields.get? name = some tag) :
    tagField fields name = .ok tag := by
  rw [tagField, h]

theorem intField_eq {v : Int} (h : fields.get? name = some (.ofInt v)) (hv : Narrow v) :
    intField fields name = .ok v := by
  unfold intField
  rw [tagField_eq h]
  exact congrArg Except.ok hv.toInt_ofInt

theorem intsField_eq {vs : List Int} (h : fields.get? name = some (.ofInts vs))
    (hvs : ∀ v ∈ vs, Narrow v) : intsField fields name = .ok vs := by
  unfold intsField
  rw [tagField_eq h]
  exact congrArg Except.ok (map_toInt_ofInt hvs)

theorem posField_eq {p : Pos} (h : fields.get? name = some p.toTag) (hp : p.InWorld) :
    posField fields name = .ok p := by
  unfold posField
  rw [tagField_eq h, ok_bind, Pos.ofTag?_toTag hp]
  rfl

theorem boxField_eq {b : Box} (h : fields.get? name = some b.toTag) (hb : b.InWorld)
    (ho : b.Ordered) : boxField fields name = .ok b := by
  unfold boxField
  rw [tagField_eq h, ok_bind, Box.ofTag?_toTag hb ho]
  rfl

end Reading

theorem columns_flatMap (points : List Column) :
    columns (points.flatMap fun c => [c.x, c.z]) = points := by
  induction points with
  | nil => rfl
  | cons c points ih => exact congrArg (c :: ·) ih

theorem length_columns (points : List Column) :
    (points.flatMap fun c => [c.x, c.z]).length = 2 * points.length := by
  induction points with
  | nil => rfl
  | cons c points ih =>
    rw [List.flatMap_cons, List.length_append, ih]
    simp only [List.length_cons, List.length_nil]
    omega

theorem triples_flatMap (points : List Pos) :
    triples (points.flatMap fun p => [p.x, p.y, p.z]) = points := by
  induction points with
  | nil => rfl
  | cons p points ih => exact congrArg (p :: ·) ih

theorem length_triples (points : List Pos) :
    (points.flatMap fun p => [p.x, p.y, p.z]).length = 3 * points.length := by
  induction points with
  | nil => rfl
  | cons p points ih =>
    rw [List.flatMap_cons, List.length_append, ih]
    simp only [List.length_cons, List.length_nil]
    omega

/-- Coordinates that are some and none left over pass the check of a reader. -/
theorem not_refused {flat : List Int} {n : Nat} (hpos : 0 < flat.length)
    (hmod : flat.length % n = 0) : ¬(flat.isEmpty || flat.length % n ≠ 0) = true := by
  rw [Bool.or_eq_true, not_or, List.isEmpty_iff, decide_eq_true_eq, not_not]
  exact ⟨List.length_pos_iff.1 hpos, hmod⟩

/-! ## Shapes -/

section Shapes

variable {R : Type} [StoredRadius R] {fields : Fields}

theorem cuboidOf_eq {c : Cuboid} (hs : (Shape.cuboid c : Shape R).Sound)
    (hw : (Shape.cuboid c : Shape R).Representable) (hm : fields.get? "mainPos" = some c.main.toTag)
    (hv : fields.get? "vicePos" = some c.vice.toTag) : cuboidOf fields = .ok c := by
  obtain ⟨-, hmain, hvice⟩ := hw
  have hbox : c.box = .span c.main c.vice := hs
  unfold cuboidOf
  rw [posField_eq hm hmain, posField_eq hv hvice]
  show Except.ok (Cuboid.ofCorners c.main c.vice) = _
  rw [Cuboid.ofCorners, ← hbox]

/-- A sphere whose box is in the world fits. -/
theorem fits_of_inWorld {s : Sphere R} (hs : (Shape.sphere s).Sound)
    (hfinite : Radius.isFinite s.radius = true) (hw : s.box.InWorld) :
    Sphere.fits s.center s.radius = true := by
  have hbox : s.box = Sphere.around s.center s.radius := hs
  rw [hbox] at hw
  obtain ⟨⟨⟨hx, -⟩, ⟨hy, -⟩, ⟨hz, -⟩⟩, ⟨⟨-, hx'⟩, ⟨-, hy'⟩, ⟨-, hz'⟩⟩⟩ := hw
  unfold Sphere.fits Sphere.inWorld
  rw [hfinite]
  set c := Radius.ceil s.radius with hc
  simp only [Sphere.around, Box.span, Pos.inf, Pos.sup, Pos.splat, Pos.sub_x, Pos.sub_y, Pos.sub_z,
    Pos.add_x, Pos.add_y, Pos.add_z, ← hc, le_min_iff, max_le_iff] at hx hy hz hx' hy' hz'
  simp only [Bool.true_and, List.all_cons, List.all_nil, Bool.and_true, Bool.and_eq_true,
    decide_eq_true_eq]
  -- the corners of the box are as far from the center as the radius, rounded up
  simp only [minInt32, maxInt32] at *
  omega

theorem sphereOf_eq {s : Sphere R} (hs : (Shape.sphere s).Sound) (hp : (Shape.sphere s).Proper)
    (hw : (Shape.sphere s).Representable) (hc : fields.get? "center" = some s.center.toTag)
    (hr : fields.get? "radius" = some (Radius.toTag s.radius)) : sphereOf fields = .ok s := by
  have hbox : s.box = Sphere.around s.center s.radius := hs
  have hfits := fits_of_inWorld hs hp.1 hw.1
  unfold sphereOf
  rw [posField_eq hc hw.2, ok_bind, tagField_eq hr, ok_bind, StoredRadius.ofTag?_toTag]
  dsimp only
  rw [hp.1, hp.2, hfits]
  show Except.ok (Sphere.make s.center s.radius) = _
  rw [Sphere.make, ← hbox]

theorem polygonOf_eq {g : Polygon} (hs : (Shape.polygon g : Shape R).Sound)
    (hp : (Shape.polygon g : Shape R).Proper) (hw : (Shape.polygon g : Shape R).Representable)
    (hpoints : fields.get? "points" = some (.ofInts (g.points.flatMap fun c => [c.x, c.z])))
    (hmin : fields.get? "minY" = some (.ofInt g.minY))
    (hmax : fields.get? "maxY" = some (.ofInt g.maxY)) : polygonOf fields = .ok g := by
  obtain ⟨-, hcolumns, hminY, hmaxY⟩ := hw
  obtain ⟨hends, hbox⟩ := hs
  have hnarrow : ∀ v ∈ g.points.flatMap fun c => [c.x, c.z], Narrow v := by
    intro v hv
    obtain ⟨c, hc, hv⟩ := List.mem_flatMap.1 hv
    obtain ⟨hx, hz⟩ := hcolumns c hc
    rcases List.mem_cons.1 hv with rfl | hv
    · exact hx
    · exact List.mem_singleton.1 hv ▸ hz
  have hlength := length_columns g.points
  have hpos := List.length_pos_iff.2 hp
  unfold polygonOf
  rw [intsField_eq hpoints hnarrow, ok_bind]
  dsimp only
  rw [if_neg (not_refused (by omega) (by omega)), intField_eq hmin hminY,
    intField_eq hmax hmaxY, ok_bind, ok_bind, if_neg (not_lt.2 hends), columns_flatMap]
  show Except.ok (Polygon.make g.points g.minY g.maxY) = _
  rw [Polygon.make, ← hbox]

theorem convexOf_eq {c : Convex} (hs : (Shape.convex c : Shape R).Sound)
    (hp : (Shape.convex c : Shape R).Proper) (hw : (Shape.convex c : Shape R).Representable)
    (hpoints : fields.get? "points" = some (.ofInts (c.points.flatMap fun p => [p.x, p.y, p.z]))) :
    convexOf fields = .ok c := by
  have hnarrow : ∀ v ∈ c.points.flatMap fun p => [p.x, p.y, p.z], Narrow v := by
    intro v hv
    obtain ⟨p, hp, hv⟩ := List.mem_flatMap.1 hv
    obtain ⟨hx, hy, hz⟩ := hw.2 p hp
    simp only [List.mem_cons, List.not_mem_nil, or_false] at hv
    rcases hv with rfl | rfl | rfl
    · exact hx
    · exact hy
    · exact hz
  have hlength := length_triples c.points
  have hpos := List.length_pos_iff.2 hp.1
  have hmany := hp.2
  unfold convexOf
  rw [intsField_eq hpoints hnarrow, ok_bind]
  dsimp only
  rw [if_neg (not_refused (by omega) (by omega)), triples_flatMap, if_neg (by omega)]
  exact congrArg Except.ok (Eq.symm hs)

/-- **A shape is read back from its fields.** -/
theorem shapeOf_eq {s : Shape R} (hs : s.Sound) (hp : s.Proper) (hw : s.Representable)
    (hbox : fields.get? "box" = some s.box.toTag)
    (hfields : ∀ x ∈ shapeFields s, fields.get? x.1 = some x.2) :
    shapeOf s.kind fields = .ok s := by
  cases s with
  | cuboid c =>
    have hm := hfields ("mainPos", c.main.toTag) (by simp [shapeFields])
    have hv := hfields ("vicePos", c.vice.toTag) (by simp [shapeFields])
    show (cuboidOf fields >>= fun c => Except.ok (Shape.cuboid c)) = _
    rw [cuboidOf_eq hs hw hm hv, ok_bind]
  | expand e =>
    show (boxField fields "box" >>= fun b => Except.ok (Shape.expand ⟨b⟩)) = _
    rw [boxField_eq hbox hw.1 hs, ok_bind]
    rfl
  | sphere s =>
    have hc := hfields ("center", s.center.toTag) (by simp [shapeFields])
    have hr := hfields ("radius", Radius.toTag s.radius) (by simp [shapeFields])
    show (sphereOf fields >>= fun s => Except.ok (Shape.sphere s)) = _
    rw [sphereOf_eq hs hp hw hc hr, ok_bind]
  | polygon g =>
    have hpoints := hfields ("points", .ofInts (g.points.flatMap fun c => [c.x, c.z]))
      (by simp [shapeFields])
    have hmin := hfields ("minY", .ofInt g.minY) (by simp [shapeFields])
    have hmax := hfields ("maxY", .ofInt g.maxY) (by simp [shapeFields])
    show (polygonOf fields >>= fun g => Except.ok (Shape.polygon g)) = _
    rw [polygonOf_eq hs hp hw hpoints hmin hmax, ok_bind]
  | convex c =>
    have hpoints := hfields ("points", .ofInts (c.points.flatMap fun p => [p.x, p.y, p.z]))
      (by simp [shapeFields])
    show (convexOf fields >>= fun c => Except.ok (Shape.convex c)) = _
    rw [convexOf_eq hs hp hw hpoints, ok_bind]

end Shapes

/-! ## Regions -/

section Regions

variable {R : Type} [StoredRadius R] {r : Region R}

theorem kind_narrow (k : RegionKind) : Narrow k.id := by
  cases k <;> exact ⟨by decide, by decide⟩

theorem ofId?_id (k : RegionKind) : RegionKind.ofId? k.id = some k := by
  cases k <;> rfl

/-- The fields of a region in the order in which they are written. -/
def written (r : Region R) : List (String × Tag) :=
  [("type", .ofInt r.kind.id), ("dim", .ofInt r.dim), ("box", r.box.toTag)] ++ shapeFields r.shape

theorem written_nodup : (r.written.map Prod.fst).Nodup := by
  obtain ⟨dim, shape⟩ := r
  cases shape <;> simp [written, shapeFields]

/-- What is read under a name is what is written under it. -/
theorem get?_toFields {x : String × Tag} (hx : x ∈ r.written) : r.toFields.get? x.1 = some x.2 :=
  Fields.get?_ofList_of_mem written_nodup hx

/-- **A region is read back from its fields.** -/
theorem ofFields?_toFields (hs : r.shape.Sound) (hp : r.shape.Proper) (hw : r.Representable) :
    ofFields? r.toFields = .ok r := by
  have htype : r.toFields.get? "type" = some (.ofInt r.kind.id) :=
    get?_toFields (x := ("type", .ofInt r.kind.id)) (by simp [written])
  have hdim : r.toFields.get? "dim" = some (.ofInt r.dim) :=
    get?_toFields (x := ("dim", .ofInt r.dim)) (by simp [written])
  have hbox : r.toFields.get? "box" = some r.box.toTag :=
    get?_toFields (x := ("box", r.box.toTag)) (by simp [written])
  have hshape := shapeOf_eq hs hp hw.shape hbox fun x hx =>
    get?_toFields (List.mem_append_right _ hx)
  unfold ofFields?
  rw [intField_eq htype (kind_narrow _), ok_bind, ofId?_id]
  dsimp only
  rw [intField_eq hdim hw.dim, ok_bind]
  show (shapeOf r.shape.kind r.toFields >>= _) = _
  rw [hshape]
  rfl

theorem names_short : ∀ name ∈ ["type", "dim", "box", "mainPos", "vicePos", "center", "radius",
    "points", "minY", "maxY"], ShortText name := by
  decide +kernel

/-- **The tags of a region fit into the binary form.** -/
theorem toFields_fits (hf : r.shape.Filled) (hw : r.InWorld) : (Tag.compound r.toFields).Fits := by
  have hpos (p : Pos) : p.toTag.Fits := show 3 ≤ 2147483647 by decide
  refine fits_ofList fun x hx => ?_
  rcases List.mem_append.1 hx with hx | hx
  · simp only [List.mem_cons, List.not_mem_nil, or_false] at hx
    rcases hx with rfl | rfl | rfl
    · exact ⟨names_short _ (by simp), trivial⟩
    · exact ⟨names_short _ (by simp), trivial⟩
    · exact ⟨names_short _ (by simp), show 6 ≤ 2147483647 by decide⟩
  · obtain ⟨dim, shape⟩ := r
    cases shape with
    | expand e => exact nomatch hx
    | cuboid c =>
      simp only [shapeFields, List.mem_cons, List.not_mem_nil, or_false] at hx
      rcases hx with rfl | rfl
      · exact ⟨names_short _ (by simp), hpos _⟩
      · exact ⟨names_short _ (by simp), hpos _⟩
    | sphere s =>
      simp only [shapeFields, List.mem_cons, List.not_mem_nil, or_false] at hx
      rcases hx with rfl | rfl
      · exact ⟨names_short _ (by simp), hpos _⟩
      · refine ⟨names_short _ (by simp), ?_⟩
        rw [StoredRadius.toTag_eq]
        trivial
    | polygon g =>
      obtain ⟨-, -, -, -, hcount⟩ := hw.shape
      simp only [shapeFields, List.mem_cons, List.not_mem_nil, or_false] at hx
      rcases hx with rfl | rfl | rfl
      · refine ⟨names_short _ (by simp), ?_⟩
        show (List.map Int32.ofInt _).length ≤ maxInt32.toNat
        rw [List.length_map, length_columns]
        exact hcount
      · exact ⟨names_short _ (by simp), trivial⟩
      · exact ⟨names_short _ (by simp), trivial⟩
    | convex c =>
      obtain ⟨-, hcount⟩ := hf
      simp only [shapeFields, List.mem_cons, List.not_mem_nil, or_false] at hx
      subst hx
      refine ⟨names_short _ (by simp), ?_⟩
      show (List.map Int32.ofInt _).length ≤ maxInt32.toNat
      rw [List.length_map, length_triples]
      have hmax : Convex.maxPoints = 64 := rfl
      have hint : maxInt32.toNat = 2147483647 := rfl
      omega

end Regions

end Region

end VoxelEdit
