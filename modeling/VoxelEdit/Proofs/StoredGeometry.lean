import VoxelEdit.Proofs.CanonicalRegion
import VoxelEdit.Proofs.HullWidth
import VoxelEdit.Proofs.OutlineWidth

/-!
# Stored outlines and hulls in fixed width

An outline is tested with numbers of 64 bits, and the hull of points is computed with 128. Whatever is
stored, its coordinates have 32 bits, and so have those of a position that is asked for. Two coordinates
differ by up to 32 bits and a sign, and a product of such differences has a bit more than there is room
for.

* `Region.exact_in_squares_iff`: **an outline answers wherever it lies, with the column, in a square of a
  given size, just if that is at most `outlineSide`.**
* `Region.stored_geometry_exact_iff`: **which stored geometry answers**, an outline or a hull, and for
  which position. What it answers is what exact numbers do.
-/

namespace VoxelEdit

open Number

/-! ## Coordinates of 32 bits -/

theorem Narrow.abs_le_pow {v : ℤ} (hv : Narrow v) : |v| ≤ 2 ^ 31 := by
  obtain ⟨hlow, hhigh⟩ := hv
  exact abs_le.2 ⟨hlow, hhigh.trans (by decide)⟩

theorem Pos.InWorld.near {p : Pos} (hp : p.InWorld) : p.Near (2 ^ 31) :=
  ⟨hp.x.abs_le_pow, hp.y.abs_le_pow, hp.z.abs_le_pow⟩

/-! ## Outlines -/

/-- The longest side of a square whose area is a number of 63 bits. -/
def outlineSide : ℤ := 3037000499

/-- Columns between two numbers, along both axes. -/
theorem inSquare_of_between {D : ℤ} {cs : List Column} (lo hi : ℤ) (hD : hi - lo ≤ D)
    (hcs : ∀ c ∈ cs, (lo ≤ c.x ∧ c.x ≤ hi) ∧ lo ≤ c.z ∧ c.z ≤ hi) : InSquare D cs := by
  intro a ha b hb
  obtain ⟨hax, haz⟩ := hcs a ha
  obtain ⟨hbx, hbz⟩ := hcs b hb
  exact ⟨abs_le.2 ⟨by omega, by omega⟩, abs_le.2 ⟨by omega, by omega⟩⟩

/-- Columns of 32 bits lie in a square. -/
theorem inSquare_of_narrow {cs : List Column} (hcs : ∀ c ∈ cs, Narrow c.x ∧ Narrow c.z) :
    InSquare maxWord32 cs :=
  inSquare_of_between minInt32 maxInt32 (by decide) hcs

namespace Region

/-- The flat prism over an outline. -/
def prism (points : List Column) : Region Float := ⟨0, .polygon (.make points 0 0)⟩

/-- A prism of 32 bits is read back from its fields. -/
theorem prism_stored {points : List Column} (hne : points ≠ [])
    (hcolumns : ∀ c ∈ points, Narrow c.x ∧ Narrow c.z) :
    ofFields? (prism points).toFields = .ok (prism points) := by
  have hzero : Narrow 0 := ⟨by decide, by decide⟩
  have hbox := Polygon.envelope_inWorld hne hcolumns hzero hzero
  exact ofFields?_toFields ⟨le_rfl, rfl⟩ hne ⟨hzero, hbox, hcolumns, hzero, hzero⟩

/-- The hull of some points. -/
def hull (points : List Pos) : Region Float := ⟨0, .convex (.ofPoints points)⟩

/-- A hull of 32 bits is read back from its fields. -/
theorem hull_stored {points : List Pos} (hne : points ≠ []) (hcount : points.length ≤ Convex.maxPoints)
    (hpoints : ∀ p ∈ points, p.InWorld) : ofFields? (hull points).toFields = .ok (hull points) := by
  have hzero : Narrow 0 := ⟨by decide, by decide⟩
  have hbox := Convex.envelope_inWorld hne hpoints
  exact ofFields?_toFields rfl ⟨hne, hcount⟩ ⟨hzero, hbox, hpoints⟩

/-- A triangle as high as the square next larger than an outline may lie in. -/
def wedge : List Column :=
  [⟨-1518500250, -1518500250⟩, ⟨-1518500250, 1518500250⟩, ⟨1518500250, 0⟩]

/-- The near side of the triangle is one of a length whose square does not fit. -/
theorem wedge_stops : Polygon.encloses? wedge ⟨1518500250, 1⟩ = none := by decide

theorem wedge_inSquare {D : ℤ} (hD : outlineSide < D) : InSquare D (⟨1518500250, 1⟩ :: wedge) := by
  unfold outlineSide at hD
  exact inSquare_of_between (-1518500250) 1518500250 (by omega) (by decide)

variable {fields : Nbt.Fields} {r : Region Float} {g : Polygon} {c : Convex} {p : Pos} {safe : Prop}

/-! ## Stored outlines -/

/-- The columns of a stored outline, and that of a position, have 32 bits. -/
theorem stored_narrow (h : ofFields? fields = .ok r) (hg : r.shape = .polygon g) (hp : p.InWorld) :
    ∀ c ∈ (⟨p.x, p.z⟩ : Column) :: g.points, Narrow c.x ∧ Narrow c.z := by
  have hw := (representable_of_ofFields? h).shape
  rw [hg] at hw
  obtain ⟨-, hcolumns, -, -⟩ := hw
  exact List.forall_mem_cons.2 ⟨⟨hp.x, hp.z⟩, hcolumns⟩

theorem contains?_polygon (hg : r.shape = .polygon g) (p : Pos) :
    r.contains? p = if g.minY ≤ p.y ∧ p.y ≤ g.maxY then Polygon.encloses? g.points ⟨p.x, p.z⟩
      else some false := by
  show r.shape.contains? p = _
  rw [hg]
  show g.contains? p = _
  simp only [Polygon.contains?, Bool.and_eq_true, decide_eq_true_eq]

/-- What is answered of a stored outline is answered as with exact numbers, and in a small square
everything is answered. -/
theorem contains?_polygon_attains (h : ofFields? fields = .ok r) (hg : r.shape = .polygon g)
    (hp : p.InWorld) (hsafe : safe → InSquare outlineSide (⟨p.x, p.z⟩ :: g.points)) :
    Attains safe (r.contains? p) (r.contains p) := by
  have hexact : r.contains p = if g.minY ≤ p.y ∧ p.y ≤ g.maxY then
      Polygon.encloses g.points ⟨p.x, p.z⟩ else false := by
    show r.shape.contains p = _
    rw [hg]
    show g.contains p = _
    unfold Polygon.contains
    split
    · rename_i hspan
      rw [decide_eq_true hspan.1, decide_eq_true hspan.2, Bool.true_and, Bool.true_and]
    · rename_i hspan
      rw [← Bool.decide_and, decide_eq_false hspan, Bool.false_and]
  rw [contains?_polygon hg, hexact]
  refine .ite (fun _ => ?_) fun _ => .done _ _
  exact Polygon.encloses?_attains (by decide) (inSquare_of_narrow (stored_narrow h hg hp)) fun hs =>
    Polygon.measured_of_inSquare (by decide) (hsafe hs)

/-- **Which positions of a stored outline are not answered**: those between its ends that are on no edge
before one that is not measured. -/
theorem contains?_polygon_eq_none_iff (h : ofFields? fields = .ok r) (hg : r.shape = .polygon g)
    (hp : p.InWorld) : r.contains? p = none ↔ (g.minY ≤ p.y ∧ p.y ≤ g.maxY) ∧
      ∃ before e after, Polygon.ring g.points = before ++ e :: after ∧
        (∀ f ∈ before, Polygon.onSegment ⟨p.x, p.z⟩ f.1 f.2 = false) ∧
        ¬ Polygon.Measured ⟨p.x, p.z⟩ e.1 e.2 := by
  rw [contains?_polygon hg,
    ← Polygon.encloses?_eq_none_iff (by decide) (inSquare_of_narrow (stored_narrow h hg hp))]
  split
  · rename_i hspan
    rw [and_iff_right hspan]
  · rename_i hspan
    exact ⟨fun hnone => (nomatch hnone), fun hnone => absurd hnone.1 hspan⟩

/-- **How large the squares are in which every outline answers**: no larger than those whose area fits. -/
theorem exact_in_squares_iff (D : ℤ) : (∀ (fields : Nbt.Fields) (r : Region Float) (g : Polygon),
    ofFields? fields = .ok r → r.shape = .polygon g → ∀ p : Pos, p.InWorld →
      InSquare D (⟨p.x, p.z⟩ :: g.points) → r.contains? p = some (r.contains p)) ↔ D ≤ outlineSide := by
  constructor
  · intro hexact
    by_contra hlarge
    have hnarrow : ∀ c ∈ wedge, Narrow c.x ∧ Narrow c.z := by
      unfold Narrow
      decide
    have hp : (⟨1518500250, 0, 1⟩ : Pos).InWorld := by constructor <;> unfold Narrow <;> decide
    have hstored : ofFields? (prism wedge).toFields = .ok (prism wedge) :=
      prism_stored (List.cons_ne_nil _ _) hnarrow
    have hanswer := hexact _ _ _ hstored rfl _ hp (wedge_inSquare (not_le.1 hlarge))
    rw [contains?_polygon rfl] at hanswer
    exact nomatch wedge_stops.symm.trans hanswer
  · intro hD fields r g h hg p hp hsquare
    exact (contains?_polygon_attains h hg hp fun _ => hsquare.mono hD).eq_some trivial

/-! ## Stored hulls -/

/-- The points of a stored hull have 32 bits, and its half-spaces are those of its points. -/
theorem stored_points (h : ofFields? fields = .ok r) (hc : r.shape = .convex c) :
    (∀ q ∈ c.points, q.Near (2 ^ 31)) ∧ c.planes = Hull.ofPoints c.points := by
  have hw := (representable_of_ofFields? h).shape
  have hs := (fit_of_ofFields? h).sound
  rw [hc] at hw hs
  exact ⟨fun q hq => (hw.2 q hq).near, congrArg Convex.planes hs⟩

/-- Flat points have coordinates of 31 bits. -/
def Level (c : Convex) : Prop := Hull.Flat c.points → ∀ q ∈ c.points, q.Near (2 ^ 30)

theorem holds?_attains (h : ofFields? fields = .ok r) (hc : r.shape = .convex c)
    (hsafe : safe → Level c) (hp : p.InWorld) {s : HalfSpace} (hs : s ∈ c.planes) :
    Attains safe (s.holds? p) (s.holds p) := by
  obtain ⟨hnear, hplanes⟩ := stored_points h hc
  refine HalfSpace.holds?_attains (k := 2 ^ 94) (fun hsure => ⟨?_, hp.near⟩) (by norm_num)
  exact Hull.ofPoints_near hnear (hsafe hsure) s (hplanes ▸ hs)

theorem contains?_convex_attains (h : ofFields? fields = .ok r) (hc : r.shape = .convex c)
    (hsafe : safe → Level c) (hp : p.InWorld) : Attains safe (r.contains? p) (r.contains p) := by
  have hplanes : Attains safe (c.planes.allM fun s => s.holds? p) (c.planes.all fun s => s.holds p) :=
    .allM fun s hs => holds?_attains h hc hsafe hp hs
  show Attains safe (r.shape.contains? p) (r.shape.contains p)
  rw [hc]
  show Attains safe (c.contains? p) (c.contains p)
  unfold Convex.contains? Convex.contains
  cases c.box.contains p with
  | false => exact .done _ _
  | true => exact hplanes

/-- What is read is the region with exact half-spaces, and it is read if flat points are small. -/
theorem load?_attains (h : ofFields? fields = .ok r)
    (hsafe : safe → ∀ c, r.shape = .convex c → Level c) : Attains safe (load? fields) (.ok r) := by
  obtain ⟨dim, shape⟩ := r
  -- of all shapes only a hull is computed when it is read
  have hfound : Attains safe shape.found? shape := by
    cases shape with
    | convex c =>
      obtain ⟨hnear, hplanes⟩ := stored_points h rfl
      have hhull := Hull.ofPoints?_attains hnear fun hs => hsafe hs c rfl
      rw [← hplanes] at hhull
      exact hhull.pure
    | cuboid c => exact .done _ _
    | expand e => exact .done _ _
    | sphere s => exact .done _ _
    | polygon g => exact .done _ _
  unfold load?
  rw [h]
  exact hfound.pure

/-- Whatever its shape, a stored region that answers does so as with exact numbers. -/
theorem contains?_exact (h : ofFields? fields = .ok r) (hp : p.InWorld) {b : Bool}
    (hb : r.contains? p = some b) : b = r.contains p := by
  -- nothing is asked here of whether there is an answer, so nothing is safe
  have hshape : Attains False (r.contains? p) (r.contains p) := by
    cases hs : r.shape with
    | polygon g => exact contains?_polygon_attains h hs hp False.elim
    | convex c => exact contains?_convex_attains h hs False.elim hp
    | cuboid c | expand e | sphere s =>
      show Attains False (r.shape.contains? p) (r.shape.contains p)
      rw [hs]
      exact .done _ _
  exact hshape.eq_of_eq_some hb

/-- **Which stored geometry answers as with exact numbers.** What is read from any fields, if it is read,
is the region with exact half-spaces, and what it answers is the answer with exact numbers. An outline
gives no answer just for the positions between its ends for which some edge is not measured and no edge
before that one holds the column; in a square with sides of at most `outlineSide` it always answers. A
hull is read, each of its half-spaces tells which positions it holds, and so does the hull, as long as its
points are not flat, or have coordinates of at most 31 bits. -/
theorem stored_geometry_exact_iff (h : ofFields? fields = .ok r) (hp : p.InWorld) :
    ((∀ x, load? fields = some x → x = .ok r) ∧ ∀ b, r.contains? p = some b → b = r.contains p) ∧
    (∀ g, r.shape = .polygon g →
      (r.contains? p = none ↔ (g.minY ≤ p.y ∧ p.y ≤ g.maxY) ∧
        ∃ before e after, Polygon.ring g.points = before ++ e :: after ∧
          (∀ f ∈ before, Polygon.onSegment ⟨p.x, p.z⟩ f.1 f.2 = false) ∧
          ¬ Polygon.Measured ⟨p.x, p.z⟩ e.1 e.2) ∧
      (InSquare outlineSide (⟨p.x, p.z⟩ :: g.points) → r.contains? p = some (r.contains p))) ∧
    ∀ c, r.shape = .convex c → (Hull.Flat c.points → ∀ q ∈ c.points, q.Near (2 ^ 30)) →
      load? fields = some (.ok r) ∧ (∀ s ∈ c.planes, s.holds? p = some (s.holds p)) ∧
        r.contains? p = some (r.contains p) := by
  refine ⟨⟨fun x hx => ?_, fun b hb => contains?_exact h hp hb⟩, fun g hg => ⟨?_, fun hsquare => ?_⟩,
    fun c hc hlevel => ⟨?_, fun s hs => ?_, ?_⟩⟩
  · have hread : Attains False (load? fields) (.ok r) := load?_attains h False.elim
    exact hread.eq_of_eq_some hx
  · exact contains?_polygon_eq_none_iff h hg hp
  · exact (contains?_polygon_attains h hg hp fun _ => hsquare).eq_some trivial
  · refine (load?_attains h fun _ c' hc' => ?_).eq_some trivial
    obtain rfl := Shape.convex.inj (hc.symm.trans hc')
    exact hlevel
  · exact (holds?_attains h hc (fun _ => hlevel) hp hs).eq_some trivial
  · exact (contains?_convex_attains h hc (fun _ => hlevel) hp).eq_some trivial

/-- A corner of a wide outline, which is found on the first edge although the last one is not measured,
and a triangle in a slanting plane as large as a hull of flat points may be. -/
theorem stored_geometry_exact_iff_slanted :
    let points : List Column := [⟨-2000000000, -2000000000⟩, ⟨-2000000000, 2000000000⟩, ⟨2000000000, 0⟩]
    let corners : List Pos := [⟨-1073741824, 0, 1073741824⟩, ⟨1073741824, -1073741824, 0⟩,
      ⟨0, 1073741824, -1073741824⟩]
    let p : Pos := ⟨-2000000000, 0, -2000000000⟩
    ¬ Polygon.Measured ⟨p.x, p.z⟩ ⟨2000000000, 0⟩ ⟨-2000000000, 2000000000⟩ ∧
      (prism points).contains? p = some true ∧ (prism points).contains p = true ∧
      load? (hull corners).toFields = some (.ok (hull corners)) ∧
      (hull corners).contains? p = some ((hull corners).contains p) := by
  intro points corners p
  have hcolumns : ∀ c ∈ points, Narrow c.x ∧ Narrow c.z := by
    unfold Narrow
    decide
  have hp : p.InWorld := by constructor <;> unfold Narrow <;> decide
  have hcorners : ∀ q ∈ corners, q.InWorld ∧ q.Near (2 ^ 30) := by
    have hbounds : ∀ q ∈ corners, (|q.x| ≤ 2 ^ 30 ∧ |q.y| ≤ 2 ^ 30 ∧ |q.z| ≤ 2 ^ 30) := by decide
    have hnarrow {v : ℤ} (hv : |v| ≤ 2 ^ 30) : Narrow v := by
      obtain ⟨hlow, hhigh⟩ := abs_le.1 hv
      unfold Narrow minInt32 maxInt32
      omega
    intro q hq
    obtain ⟨hx, hy, hz⟩ := hbounds q hq
    exact ⟨⟨hnarrow hx, hnarrow hy, hnarrow hz⟩, hx, hy, hz⟩
  have hanswer : (prism points).contains? p = some true := by decide
  obtain ⟨⟨-, hexact⟩, -, -⟩ :=
    stored_geometry_exact_iff (prism_stored (List.cons_ne_nil _ _) hcolumns) hp
  obtain ⟨-, -, hhull⟩ := stored_geometry_exact_iff
    (hull_stored (List.cons_ne_nil _ _) (by decide) fun q hq => (hcorners q hq).1) hp
  obtain ⟨hload, -, hcontains⟩ := hhull (.ofPoints corners) rfl fun _ q hq => (hcorners q hq).2
  exact ⟨by decide, hanswer, (hexact true hanswer).symm, hload, hcontains⟩

/-- **The numbers are too narrow for all that can be stored.** Of a prism over a wide triangle a position
inside is not answered, as a product of two differences does not fit into 64 bits. With 128 bits a hull
of flat points is not read, as an offset does not fit. -/
theorem stored_geometry_too_wide :
    let points : List Column := [⟨-2000000000, -2000000000⟩, ⟨-2000000000, 2000000000⟩, ⟨2000000000, 0⟩]
    let corners : List Pos := [⟨-2147483648, -2147483648, -2147483648⟩,
      ⟨2147483647, 2147483647, -2147483648⟩, ⟨-2147483648, 2147483647, 2147483647⟩]
    (ofFields? (prism points).toFields = .ok (prism points) ∧
      (prism points).contains ⟨1900000000, 0, 0⟩ = true ∧
      (prism points).contains? ⟨1900000000, 0, 0⟩ = none) ∧
    ofFields? (hull corners).toFields = .ok (hull corners) ∧
      load? (R := Float) (hull corners).toFields = none := by
  intro points corners
  have hcolumns : ∀ c ∈ points, Narrow c.x ∧ Narrow c.z := by
    unfold Narrow
    decide
  have hcorners : ∀ q ∈ corners, q.InWorld := by
    have hnarrow : ∀ q ∈ corners, Narrow q.x ∧ Narrow q.y ∧ Narrow q.z := by
      unfold Narrow
      decide
    intro q hq
    obtain ⟨hx, hy, hz⟩ := hnarrow q hq
    exact ⟨hx, hy, hz⟩
  have hread := hull_stored (List.cons_ne_nil _ _) (by decide) hcorners
  have hstops : Hull.ofPoints? corners = none := by decide
  refine ⟨⟨prism_stored (List.cons_ne_nil _ _) hcolumns, by decide, by decide⟩, hread, ?_⟩
  unfold load?
  rw [hread]
  show (Hull.ofPoints? corners >>= _) >>= _ = none
  rw [hstops]
  rfl

end Region

end VoxelEdit
