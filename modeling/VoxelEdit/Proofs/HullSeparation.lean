import VoxelEdit.Proofs.ConvexHull
import VoxelEdit.Proofs.CurrentRegion

/-!
# What a hull contains, by separation

The half-spaces of a hull are found from its points, in lowest terms and each once. What the hull
contains does not depend on how they are found.

* `Convex.contains_iff_inseparable`: **a hull contains a position if no half-space separates the
  position from the points.**
* `Convex.contains_shift`: a hull that is moved contains what it contained, moved. Half-spaces that
  separate move with the points, while those of the hull are found anew.
* `Convex.contains_ofBox`: **the hull of the corners of a box is the box**, however many of them are
  distinct. A half-space that is past a position of the box is past one of its corners.
-/

namespace VoxelEdit

namespace Pos

variable {p q d : Pos}

theorem add_neg_cancel_right (p d : Pos) : p + d + -d = p := by
  apply Pos.ext <;> simp only [add_x, add_y, add_z, neg_x, neg_y, neg_z] <;> omega

/-- Points that are moved there and back. -/
theorem map_add_neg (ps : List Pos) (d : Pos) : (ps.map (· + d)).map (· + -d) = ps := by
  rw [List.map_map]
  refine List.map_id'' (fun p => ?_) ps
  exact add_neg_cancel_right p d

end Pos

/-! ## Half-spaces that move -/

namespace HalfSpace

variable {h : HalfSpace} {points : List Pos} {p : Pos}

/-- The half-space moved by `d`. -/
def move (h : HalfSpace) (d : Pos) : HalfSpace := ⟨h.normal, h.offset + h.normal.dot d⟩

theorem excess_move (h : HalfSpace) (p d : Pos) : (h.move d).excess (p + d) = h.excess p := by
  simp only [move, excess, Pos.dot, Pos.add_x, Pos.add_y, Pos.add_z]
  ring

theorem Separates.move (hs : h.Separates points p) (d : Pos) :
    (h.move d).Separates (points.map (· + d)) (p + d) where
  holds := by
    intro s hs'
    obtain ⟨t, ht, rfl⟩ := List.mem_map.1 hs'
    rw [excess_move]
    exact hs.holds t ht
  past := by
    rw [excess_move]
    exact hs.past

end HalfSpace

/-! ## Corners -/

namespace Box

variable {b : Box} {p : Pos}

theorem mem_corners : p ∈ b.corners ↔ (p.x = b.min.x ∨ p.x = b.max.x) ∧
    (p.y = b.min.y ∨ p.y = b.max.y) ∧ (p.z = b.min.z ∨ p.z = b.max.z) := by
  unfold corners
  simp only [List.mem_flatMap, List.mem_map, List.mem_cons, List.not_mem_nil, or_false]
  constructor
  · rintro ⟨y, hy, z, hz, x, hx, rfl⟩
    exact ⟨hx, hy, hz⟩
  · rintro ⟨hx, hy, hz⟩
    exact ⟨p.y, hy, p.z, hz, p.x, hx, rfl⟩

theorem Ordered.hugs_ends (hb : b.Ordered) : b.Hugs [b.min, b.max] := by
  have h := span_hugs b.min b.max
  rwa [span_min_max hb] at h

/-- The box hugs its corners. -/
theorem Ordered.hugs_corners (hb : b.Ordered) : b.Hugs b.corners := by
  refine hb.hugs_ends.extend (fun p hp => ?_) fun p hp => ?_
  · simp only [List.mem_cons, List.not_mem_nil, or_false] at hp
    rw [mem_corners]
    rcases hp with rfl | rfl <;> simp
  · obtain ⟨hx, hy, hz⟩ := hb
    have hmem := mem_corners.1 hp
    rw [contains_iff]
    omega

/-- On a stretch, a multiple is largest at one of the ends. -/
theorem exists_end_beyond {lo hi v : ℤ} (hlo : lo ≤ v) (hhi : v ≤ hi) (n : ℤ) :
    ∃ w, (w = lo ∨ w = hi) ∧ n * v ≤ n * w := by
  rcases le_total 0 n with hn | hn
  · exact ⟨hi, .inr rfl, mul_le_mul_of_nonneg_left hhi hn⟩
  · exact ⟨lo, .inl rfl, mul_le_mul_of_nonpos_left hlo hn⟩

/-- **In any direction, one of the corners lies as far out as a position of the box.** -/
theorem exists_corner_beyond (hp : b.contains p = true) (n : Pos) :
    ∃ s ∈ b.corners, n.dot p ≤ n.dot s := by
  obtain ⟨⟨hx, hx'⟩, ⟨hy, hy'⟩, hz, hz'⟩ := contains_iff.1 hp
  obtain ⟨u, hu, hux⟩ := exists_end_beyond hx hx' n.x
  obtain ⟨v, hv, hvy⟩ := exists_end_beyond hy hy' n.y
  obtain ⟨w, hw, hwz⟩ := exists_end_beyond hz hz' n.z
  refine ⟨⟨u, v, w⟩, mem_corners.2 ⟨hu, hv, hw⟩, ?_⟩
  unfold Pos.dot
  dsimp only
  omega

end Box

/-! ## Hulls -/

namespace Convex

variable {points : List Pos} {c : Convex} {b : Box} {p : Pos}

theorem contains_ofPoints_iff : (ofPoints points).contains p = true ↔
    (envelope points).contains p = true ∧ ∀ h ∈ Hull.ofPoints points, h.excess p ≤ 0 := by
  unfold contains ofPoints
  simp only [Bool.and_eq_true, List.all_eq_true, HalfSpace.holds_iff]

/-- **A hull contains what no half-space separates from its points.** -/
theorem contains_iff_inseparable (hne : points ≠ []) (p : Pos) :
    (ofPoints points).contains p = true ↔ ∀ h : HalfSpace, ¬ h.Separates points p := by
  have henc := Hull.ofPoints_encloses hne
  rw [contains_ofPoints_iff]
  constructor
  · -- whatever separates is matched by one of the half-spaces that were found
    rintro ⟨-, hall⟩ f hf
    obtain ⟨h, hh, hpast⟩ := henc.cuts f p hf
    have := hall h hh
    omega
  · intro hno
    have hblend : p.Blend points := by
      by_contra hp
      obtain ⟨f, hf⟩ := HalfSpace.exists_separates hp
      exact hno f hf
    refine ⟨contains_of_blend hblend fun s hs => envelope_contains hs, fun h hh => ?_⟩
    exact hblend.excess_le (henc.holds h hh)

/-- **A hull that is moved contains what it contained, moved.** -/
theorem contains_shift (hc : c = ofPoints c.points) (hne : c.points ≠ []) (d p : Pos) :
    (c.shift d).contains (p + d) = c.contains p := by
  have hne' : c.points.map (· + d) ≠ [] := fun h => hne (List.map_eq_nil_iff.1 h)
  rw [Bool.eq_iff_iff, hc]
  show (ofPoints (c.points.map (· + d))).contains (p + d) = true ↔ _
  rw [contains_iff_inseparable hne', contains_iff_inseparable hne]
  constructor
  · intro hno h hs
    exact hno _ (hs.move d)
  · intro hno h hs
    have hback := hs.move (-d)
    rw [Pos.map_add_neg, Pos.add_neg_cancel_right] at hback
    exact hno _ hback

theorem ofBox_points_ne_nil (b : Box) : b.corners.eraseDups ≠ [] := by
  intro hnil
  have hmem : b.min ∈ b.corners.eraseDups :=
    List.mem_eraseDups.2 (Box.mem_corners.2 ⟨.inl rfl, .inl rfl, .inl rfl⟩)
  rw [hnil] at hmem
  exact nomatch hmem

/-- The hull of the corners of a box lies in that box. -/
theorem ofBox_box (hb : b.Ordered) : (ofBox b).box = b := by
  have hhull : (ofBox b).box.Hugs b.corners.eraseDups := envelope_hugs (ofBox_points_ne_nil b)
  refine (hhull.extend (fun p hp => List.mem_eraseDups.1 hp) fun p hp => ?_).unique hb.hugs_corners
  exact hhull.contains (List.mem_eraseDups.2 hp)

/-- **The hull of the corners of a box is the box.** -/
theorem contains_ofBox (hb : b.Ordered) (p : Pos) : (ofBox b).contains p = b.contains p := by
  rw [Bool.eq_iff_iff]
  constructor
  · intro h
    have henv := (contains_ofPoints_iff.1 h).1
    rwa [← ofBox_box hb]
  · intro hp
    refine (contains_iff_inseparable (ofBox_points_ne_nil b) p).2 fun h hs => ?_
    obtain ⟨s, hs', hle⟩ := Box.exists_corner_beyond hp h.normal
    have hin := hs.holds s (List.mem_eraseDups.2 hs')
    have hpast := hs.past
    unfold HalfSpace.excess at hin hpast
    omega

end Convex

end VoxelEdit
