import VoxelEdit.Proofs.HullSeparation
import VoxelEdit.Proofs.RegionWalk

/-!
# Regions that are made from a box

* `Polygon.boxOutline_cases`: the outline of a box has one, two or four columns.
* `Polygon.contains_ofBox`: the prism over it is the box. In a proper rectangle the ray crosses the far
  side only; a flat one is a segment.
* `Region.ofBox_fills`: **a region that is made from a box, of any kind but a sphere, contains exactly
  what the box contains.** For a hull this is `Convex.contains_ofBox`.
* `Stage.setKinds_keep`: so whoever goes through these kinds keeps the set that was selected.
* `Stage.rebuilt_from_box`: both for every box and every session.
-/

namespace VoxelEdit

/-! ## Prisms -/

namespace Polygon

variable {b : Box} {p : Pos} {c : Column}

/-- The outline of a box: a column, the two ends of a flat box, or four corners. -/
theorem boxOutline_cases (hb : b.Ordered) :
    (b.min.x = b.max.x ∧ b.min.z = b.max.z ∧ boxOutline b = [⟨b.min.x, b.min.z⟩]) ∨
    (b.min.x = b.max.x ∧ b.min.z < b.max.z ∧
      boxOutline b = [⟨b.min.x, b.min.z⟩, ⟨b.max.x, b.max.z⟩]) ∨
    (b.min.x < b.max.x ∧ b.min.z = b.max.z ∧
      boxOutline b = [⟨b.min.x, b.min.z⟩, ⟨b.max.x, b.max.z⟩]) ∨
    (b.min.x < b.max.x ∧ b.min.z < b.max.z ∧ boxOutline b =
      [⟨b.min.x, b.min.z⟩, ⟨b.max.x, b.min.z⟩, ⟨b.max.x, b.max.z⟩, ⟨b.min.x, b.max.z⟩]) := by
  have hne {u v : Column} (h : u.x ≠ v.x ∨ u.z ≠ v.z) : (u == v) = false := by
    refine beq_eq_false_iff_ne.2 fun heq => ?_
    rw [heq] at h
    omega
  unfold boxOutline List.eraseReps List.eraseRepsBy
  rcases hb.x.eq_or_lt with hx | hx
  · rcases hb.z.eq_or_lt with hz | hz
    · refine .inl ⟨hx, hz, ?_⟩
      simp [List.eraseRepsBy.loop, hx, hz]
    · have h := hne (u := ⟨b.max.x, b.min.z⟩) (v := ⟨b.max.x, b.max.z⟩) (.inr hz.ne)
      refine .inr (.inl ⟨hx, hz, ?_⟩)
      simp [List.eraseRepsBy.loop, hx, h]
  · have h := hne (u := ⟨b.min.x, b.max.z⟩) (v := ⟨b.max.x, b.max.z⟩) (.inl hx.ne)
    have h' := hne (u := ⟨b.max.x, b.max.z⟩) (v := ⟨b.min.x, b.max.z⟩) (.inl hx.ne')
    rcases hb.z.eq_or_lt with hz | hz
    · -- the first corner comes again at the end
      refine .inr (.inr (.inl ⟨hx, hz, ?_⟩))
      simp [List.eraseRepsBy.loop, hz, h, h']
    · have h₁ := hne (u := ⟨b.min.x, b.min.z⟩) (v := ⟨b.max.x, b.min.z⟩) (.inl hx.ne)
      have h₂ := hne (u := ⟨b.max.x, b.min.z⟩) (v := ⟨b.max.x, b.max.z⟩) (.inr hz.ne)
      refine .inr (.inr (.inr ⟨hx, hz, ?_⟩))
      simp [List.eraseRepsBy.loop, hz.ne, h₁, h₂, h']

theorem mem_boxOutline (hb : b.Ordered) : c ∈ boxOutline b ↔
    (c.x = b.min.x ∨ c.x = b.max.x) ∧ (c.z = b.min.z ∨ c.z = b.max.z) := by
  have hmk (u w : ℤ) : c = ⟨u, w⟩ ↔ c.x = u ∧ c.z = w := by
    cases c
    exact Column.mk.injEq _ _ _ _ ▸ Iff.rfl
  rcases boxOutline_cases hb with ⟨hx, hz, h⟩ | ⟨hx, hz, h⟩ | ⟨hx, hz, h⟩ | ⟨hx, hz, h⟩ <;>
  · rw [h]
    simp only [List.mem_cons, List.not_mem_nil, or_false, hmk]
    omega

theorem onSegment_upright {u v : Column} (hu : u.x = c.x) (hv : v.x = c.x) (hlo : min u.z v.z ≤ c.z)
    (hhi : c.z ≤ max u.z v.z) : onSegment c u v = true := by
  have harea : area c u v = 0 := by
    rw [area, hu, hv, sub_self, zero_mul, mul_zero, sub_zero]
  exact onSegment_iff.2 ⟨harea, by omega, hlo, hhi⟩

theorem onSegment_level {u v : Column} (hu : u.z = c.z) (hv : v.z = c.z) (hlo : min u.x v.x ≤ c.x)
    (hhi : c.x ≤ max u.x v.x) : onSegment c u v = true := by
  have harea : area c u v = 0 := by
    rw [area, hu, hv, sub_self, zero_mul, mul_zero, sub_zero]
  exact onSegment_iff.2 ⟨harea, ⟨hlo, hhi⟩, by omega⟩

/-- A column strictly inside of a proper rectangle, or on its near sides. -/
theorem encloses_rectangle {lx hx lz hz : ℤ} (hlx : lx ≤ c.x) (hhx : c.x < hx) (hlz : lz ≤ c.z)
    (hhz : c.z < hz) : encloses [⟨lx, lz⟩, ⟨hx, lz⟩, ⟨hx, hz⟩, ⟨lx, hz⟩] c = true := by
  have hring : ring [⟨lx, lz⟩, ⟨hx, lz⟩, ⟨hx, hz⟩, ⟨lx, hz⟩] =
      [(⟨lx, lz⟩, ⟨lx, hz⟩), (⟨hx, lz⟩, ⟨lx, lz⟩), (⟨hx, hz⟩, ⟨hx, lz⟩), (⟨lx, hz⟩, ⟨hx, hz⟩)] := rfl
  have hnear : crosses c ⟨lx, lz⟩ ⟨lx, hz⟩ = false := by
    have hright : 0 ≤ (c.x - lx) * (hz - lz) := mul_nonneg (by omega) (by omega)
    rw [Bool.eq_false_iff, ne_eq, crosses_iff]
    dsimp only
    rw [sub_self, zero_mul]
    omega
  have hfar : crosses c ⟨hx, hz⟩ ⟨hx, lz⟩ = true := by
    have hleft : 0 < (c.x - hx) * (lz - hz) := mul_pos_of_neg_of_neg (by omega) (by omega)
    rw [crosses_iff]
    dsimp only
    rw [sub_self, zero_mul]
    omega
  -- the other two sides lie along the ray
  have hlow : crosses c ⟨hx, lz⟩ ⟨lx, lz⟩ = false := by
    rw [Bool.eq_false_iff, ne_eq, crosses_iff]
    dsimp only
    omega
  have hhigh : crosses c ⟨lx, hz⟩ ⟨hx, hz⟩ = false := by
    rw [Bool.eq_false_iff, ne_eq, crosses_iff]
    dsimp only
    omega
  refine encloses_iff.2 (.inr ?_)
  rw [hring]
  simp only [List.countP_cons, List.countP_nil, hnear, hfar, hlow, hhigh, Bool.false_eq_true, if_false,
    if_true]

/-- **The outline of a box encloses the columns of the box.** -/
theorem encloses_boxOutline (hb : b.Ordered) : encloses (boxOutline b) c = true ↔
    (b.min.x ≤ c.x ∧ c.x ≤ b.max.x) ∧ b.min.z ≤ c.z ∧ c.z ≤ b.max.z := by
  have hx := hb.x
  have hz := hb.z
  constructor
  · intro h
    obtain ⟨⟨u, hu, hux⟩, ⟨v, hv, hvx⟩, ⟨s, hs, hsz⟩, ⟨t, ht, htz⟩⟩ := encloses_between h
    rw [mem_boxOutline hb] at hu hv hs ht
    omega
  · rintro ⟨⟨hlx, hhx⟩, hlz, hhz⟩
    -- an edge of the outline has the column on it
    have onEdge {u v : Column} (he : (u, v) ∈ ring (boxOutline b)) (hon : onSegment c u v = true) :
        encloses (boxOutline b) c = true := encloses_iff.2 (.inl ⟨(u, v), he, hon⟩)
    rcases boxOutline_cases hb with ⟨ex, ez, h⟩ | ⟨ex, ez, h⟩ | ⟨ex, ez, h⟩ | ⟨ex, ez, h⟩
    · exact encloses_vertex ((mem_boxOutline hb).2 (by omega))
    · refine onEdge (u := ⟨b.min.x, b.min.z⟩) (v := ⟨b.max.x, b.max.z⟩) ?_ ?_
      · rw [h]
        exact List.mem_cons_self
      · exact onSegment_upright (by dsimp only; omega) (by dsimp only; omega)
          ((min_le_left _ _).trans hlz) (hhz.trans (le_max_right _ _))
    · refine onEdge (u := ⟨b.min.x, b.min.z⟩) (v := ⟨b.max.x, b.max.z⟩) ?_ ?_
      · rw [h]
        exact List.mem_cons_self
      · exact onSegment_level (by dsimp only; omega) (by dsimp only; omega)
          ((min_le_left _ _).trans hlx) (hhx.trans (le_max_right _ _))
    · by_cases hfar : c.x = b.max.x
      · refine onEdge (u := ⟨b.max.x, b.max.z⟩) (v := ⟨b.max.x, b.min.z⟩) ?_ ?_
        · rw [h]
          exact List.mem_cons_of_mem _ (List.mem_cons_of_mem _ List.mem_cons_self)
        · exact onSegment_upright hfar.symm hfar.symm ((min_le_right _ _).trans hlz)
            (hhz.trans (le_max_left _ _))
      · by_cases htop : c.z = b.max.z
        · refine onEdge (u := ⟨b.min.x, b.max.z⟩) (v := ⟨b.max.x, b.max.z⟩) ?_ ?_
          · rw [h]
            exact List.mem_cons_of_mem _ (List.mem_cons_of_mem _ (List.mem_cons_of_mem _
              List.mem_cons_self))
          · exact onSegment_level htop.symm htop.symm ((min_le_left _ _).trans hlx)
              (hhx.trans (le_max_right _ _))
        · rw [h]
          exact encloses_rectangle hlx (by omega) hlz (by omega)

/-- The prism over the outline of a box lies in that box. -/
theorem ofBox_box (hb : b.Ordered) : (ofBox b).box = b := by
  have hprism : (ofBox b).box.Hugs (bothEnds (boxOutline b) b.min.y b.max.y) :=
    envelope_hugs (boxOutline_ne_nil b) hb.y
  refine hprism.unique (hb.hugs_ends.extend (fun p hp => ?_) fun p hp => ?_)
  · simp only [List.mem_cons, List.not_mem_nil, or_false] at hp
    rcases hp with rfl | rfl
    · exact List.mem_flatMap.2 ⟨⟨b.min.x, b.min.z⟩, (mem_boxOutline hb).2 ⟨.inl rfl, .inl rfl⟩,
        List.mem_cons_self⟩
    · exact List.mem_flatMap.2 ⟨⟨b.max.x, b.max.z⟩, (mem_boxOutline hb).2 ⟨.inr rfl, .inr rfl⟩,
        List.mem_cons_of_mem _ List.mem_cons_self⟩
  · obtain ⟨c, hc, hp⟩ := List.mem_flatMap.1 hp
    have hmem := (mem_boxOutline hb).1 hc
    obtain ⟨hx, hy, hz⟩ := hb
    simp only [List.mem_cons, List.not_mem_nil, or_false] at hp
    rcases hp with rfl | rfl <;>
    · rw [Box.contains_iff]
      dsimp only
      omega

/-- **The prism over the outline of a box is the box.** -/
theorem contains_ofBox (hb : b.Ordered) (p : Pos) : (ofBox b).contains p = b.contains p := by
  rw [Bool.eq_iff_iff, Box.contains_iff]
  unfold contains
  simp only [Bool.and_eq_true, decide_eq_true_eq]
  show (b.min.y ≤ p.y ∧ p.y ≤ b.max.y) ∧ encloses (boxOutline b) ⟨p.x, p.z⟩ = true ↔ _
  rw [encloses_boxOutline hb]
  exact ⟨fun ⟨hy, hx, hz⟩ => ⟨hx, hy, hz⟩, fun ⟨hx, hy, hz⟩ => ⟨hy, hx, hz⟩⟩

end Polygon

/-! ## Regions -/

namespace Region

variable {R : Type} [ExactRadius R] {r : Region R} {b : Box} {k : RegionKind}

/-- The region fills a box: this is its box, and all of it lies in the region. -/
structure Fills (r : Region R) (b : Box) : Prop where
  box : r.box = b
  contains : ∀ p, r.contains p = b.contains p

theorem Fills.positions (h : r.Fills b) : r.positions = b.positions := by
  unfold Region.positions
  rw [h.box]
  refine List.filter_eq_self.2 fun p hp => ?_
  rw [h.contains]
  exact Box.mem_positions.1 hp

theorem Fills.size (h : r.Fills b) (hb : b.Ordered) : r.size = b.volume := by
  have hr : r.box.Ordered := h.box.symm ▸ hb
  rw [size_eq_length hr, h.positions, Box.length_positions hb]

/-- **A region that is made from a box fills it, unless it is a sphere.** -/
theorem ofBox_fills (hk : k ≠ .sphere) (dim : Int) (hb : b.Ordered) :
    (ofBox k dim b : Region R).Fills b := by
  cases k with
  | cuboid =>
    have hspan : Box.span b.min b.max = b := Box.span_min_max hb
    exact ⟨hspan, fun p => congrArg (fun c : Box => c.contains p) hspan⟩
  | expand => exact ⟨rfl, fun _ => rfl⟩
  | sphere => exact absurd rfl hk
  | polygon =>
    exact ⟨Polygon.ofBox_box hb, Polygon.contains_ofBox hb⟩
  | convex => exact ⟨Convex.ofBox_box hb, Convex.contains_ofBox hb⟩

theorem ofBox_kind (k : RegionKind) (dim : Int) (b : Box) : (ofBox k dim b : Region R).kind = k := by
  cases k <;> rfl

/-- A cuboid or an expanding box fills its box. -/
theorem fills_of_kind (h : r.kind = .cuboid ∨ r.kind = .expand) : r.Fills r.box := by
  obtain ⟨dim, s⟩ := r
  cases s with
  | cuboid c => exact ⟨rfl, fun _ => rfl⟩
  | expand e => exact ⟨rfl, fun _ => rfl⟩
  | sphere | polygon | convex => exact absurd h (by simp [kind, Shape.kind])

end Region

/-! ## Sessions -/

namespace Stage

variable {R : Type} [ExactRadius R] {st : Stage R} {r : Region R} {b : Box} {k : RegionKind}

/-- Another kind for a region that fills a box: the new region fills it, too. -/
theorem setKind_fills (hregion : st.session.region = some r) (hr : r.Fills b) (hb : b.Ordered)
    (hk : k ≠ .sphere) : ∃ r', (st.setKind k).session.region = some r' ∧ r'.kind = k ∧
      r'.dim = r.dim ∧ r'.Fills b := by
  rcases st.setKind_cases k with ⟨hsame, heq⟩ | ⟨r₁, hr₁, -, heq⟩
  · rw [hregion, Option.any_some, decide_eq_false_iff_not, not_not] at hsame
    refine ⟨r, ?_, hsame, rfl, hr⟩
    rw [heq]
    exact hregion
  · obtain rfl : r = r₁ := Option.some.inj (hregion.symm.trans hr₁)
    rw [hr.box] at heq
    refine ⟨.ofBox k r.dim b, ?_, Region.ofBox_kind k r.dim b, rfl, Region.ofBox_fills hk r.dim hb⟩
    rw [heq, putRegion_region]

/-- The kinds in between make no difference. -/
theorem setKinds_keep (hregion : st.session.region = some r) (hr : r.Fills b) (hb : b.Ordered)
    {kinds : List RegionKind} (hkinds : ∀ k ∈ kinds, k ≠ .sphere) :
    ∃ r', (kinds.foldl (fun st k => st.setKind k) st).session.region = some r' ∧ r'.kind = kinds.getLastD r.kind ∧
      r'.dim = r.dim ∧ r'.Fills b := by
  induction kinds generalizing st r with
  | nil => exact ⟨r, hregion, rfl, rfl, hr⟩
  | cons k kinds ih =>
    obtain ⟨r₁, hregion₁, hkind₁, hdim₁, hr₁⟩ :=
      setKind_fills hregion hr hb (hkinds k List.mem_cons_self)
    obtain ⟨r', hregion', hkind', hdim', hr'⟩ :=
      ih hregion₁ hr₁ fun k' hk' => hkinds k' (List.mem_cons_of_mem k hk')
    refine ⟨r', hregion', ?_, hdim'.trans hdim₁, hr'⟩
    rw [hkind', hkind₁, List.getLastD_cons]

/-- **A selection that is made anew from a box keeps the box.** For every box, flat or not, a cuboid,
an expanding box, a prism and a hull that are made from it have this box, its volume and its positions.
So a session whose region is a cuboid or an expanding box may go through these kinds as it likes: its
region is then of the last one of them, and the selected set is the same. -/
theorem rebuilt_from_box :
    (∀ (k : RegionKind) (dim : Int) (b : Box), k ≠ .sphere → b.Ordered →
      (Region.ofBox k dim b : Region R).box = b ∧ (Region.ofBox k dim b : Region R).size = b.volume ∧
        ∀ p, (Region.ofBox k dim b : Region R).contains p = b.contains p) ∧
    ∀ (st : Stage R) (r : Region R), st.session.region = some r → r.Reached →
      (r.kind = .cuboid ∨ r.kind = .expand) → ∀ kinds : List RegionKind, (∀ k ∈ kinds, k ≠ .sphere) →
        ∃ r', (kinds.foldl (fun st k => st.setKind k) st).session.region = some r' ∧
          r'.kind = kinds.getLastD r.kind ∧ r'.dim = r.dim ∧ r'.box = r.box ∧ r'.size = r.size ∧
          r'.positions = r.positions ∧ ∀ p, r'.contains p = r.contains p := by
  refine ⟨fun k dim b hk hb => ?_, fun st r hregion hreached hkind kinds hkinds => ?_⟩
  · have h : (Region.ofBox k dim b : Region R).Fills b := Region.ofBox_fills hk dim hb
    exact ⟨h.box, h.size hb, h.contains⟩
  · have hr := Region.fills_of_kind hkind
    have hb : r.box.Ordered := hreached.sound.ordered
    obtain ⟨r', hregion', hkind', hdim', hr'⟩ := setKinds_keep hregion hr hb hkinds
    refine ⟨r', hregion', hkind', hdim', hr'.box, (hr'.size hb).trans (hr.size hb).symm,
      hr'.positions.trans hr.positions.symm, fun p => ?_⟩
    rw [hr'.contains, hr.contains]

/-- A box that is one block wide goes through a prism over two columns and a hull of four points, and
is a cuboid again. -/
theorem rebuilt_from_box_wall :
    ∃ (st : Stage ℝ) (r : Region ℝ), st.session.region = some r ∧ r.Reached ∧ r.kind = .expand ∧
      (Region.ofBox .convex 0 r.box : Region ℝ).contains ⟨2, 6, -3⟩ = true ∧
      ∃ r', ([.polygon, .convex, .cuboid].foldl (fun (st : Stage ℝ) k => st.setKind k) st).session.region =
        some r' ∧
        r'.kind = .cuboid ∧ r'.size = 12 ∧ r'.positions = r.positions := by
  let b : Box := ⟨⟨2, 5, -3⟩, ⟨2, 7, 0⟩⟩
  have hb : b.Ordered := ⟨by decide, by decide, by decide⟩
  let r : Region ℝ := .ofBox .expand 0 b
  have hr : r.Reached := .ofBox .expand 0 hb
  let st : Stage ℝ := ⟨{ (Session.new .standard : Session ℝ) with region := some r }, .blank⟩
  obtain ⟨hmade, hsession⟩ := rebuilt_from_box (R := ℝ)
  obtain ⟨-, -, hcontains⟩ := hmade .convex 0 b (by decide) hb
  obtain ⟨r', hregion, hkind, -, -, hsize, hpositions, -⟩ :=
    hsession st r rfl hr (.inr rfl) [.polygon, .convex, .cuboid] (by decide)
  exact ⟨st, r, rfl, hr, rfl, hcontains ⟨2, 6, -3⟩, r', hregion, hkind, hsize, hpositions⟩

end Stage

end VoxelEdit
