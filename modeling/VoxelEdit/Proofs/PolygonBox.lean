import VoxelEdit.Proofs.BoxIndex
import VoxelEdit.Proofs.OutlineSides

/-!
# Polygons stay within their box

* `encloses_between`: **what an outline encloses lies between its vertices**, along both axes.
* `contains_box`: so a prism contains nothing outside of its box.
-/

namespace VoxelEdit.Polygon

variable {points : List Column} {p a : Column}

/-- Between vertices of an outline, along both axes. -/
structure Between (points : List Column) (p : Column) : Prop where
  left : ∃ a ∈ points, a.x ≤ p.x
  right : ∃ a ∈ points, p.x ≤ a.x
  below : ∃ a ∈ points, a.z ≤ p.z
  above : ∃ a ∈ points, p.z ≤ a.z

/-- **What an outline encloses lies between its vertices.** -/
theorem encloses_between (h : encloses points p = true) : Between points p := by
  -- a column past all vertices along an axis would lie beyond a line
  have meets : ∀ u w : ℤ, ∃ a ∈ points, u * p.x + w * p.z ≤ u * a.x + w * a.z := by
    intro u w
    by_contra hno
    push Not at hno
    have hall : ∀ c ∈ points, u * c.x + w * c.z ≤ u * p.x + w * p.z - 1 := by
      intro c hc
      have := hno c hc
      omega
    have hbeyond := encloses_halfplane hall h
    omega
  obtain ⟨a, ha, hax⟩ := meets (-1) 0
  obtain ⟨b, hb, hbx⟩ := meets 1 0
  obtain ⟨c, hc, hcz⟩ := meets 0 (-1)
  obtain ⟨d, hd, hdz⟩ := meets 0 1
  exact ⟨⟨a, ha, by omega⟩, ⟨b, hb, by omega⟩, ⟨c, hc, by omega⟩, ⟨d, hd, by omega⟩⟩

theorem envelope_cons (c : Column) (cs : List Column) (lo hi : ℤ) :
    envelope (c :: cs) lo hi = (cs.map fun q => (⟨q.x, lo, q.z⟩ : Pos)).foldl Box.cover
      (.span ⟨c.x, lo, c.z⟩ ⟨c.x, hi, c.z⟩) := by
  rw [List.foldl_map]
  rfl

theorem envelope_ordered (points : List Column) {lo hi : ℤ} (h : lo ≤ hi) :
    (envelope points lo hi).Ordered := by
  cases points with
  | nil => exact ⟨le_rfl, h, le_rfl⟩
  | cons c cs =>
    rw [envelope_cons]
    exact (Box.span_ordered _ _).foldl_cover _

/-- The box around a prism contains its vertices, and its upper end. -/
theorem envelope_contains (ha : a ∈ points) (lo hi : ℤ) :
    (envelope points lo hi).contains ⟨a.x, lo, a.z⟩ = true ∧
      hi ≤ (envelope points lo hi).max.y := by
  cases points with
  | nil => exact absurd ha (by simp)
  | cons c cs =>
    rw [envelope_cons]
    refine ⟨Box.contains_foldl_cover ?_, ?_⟩
    · rcases List.mem_cons.1 ha with rfl | ha
      · left
        rw [Box.contains_iff]
        simp only [Box.span, Pos.inf, Pos.sup]
        omega
      · exact .inr (List.mem_map_of_mem ha)
    · have htop : (Box.span ⟨c.x, lo, c.z⟩ ⟨c.x, hi, c.z⟩).contains ⟨c.x, hi, c.z⟩ = true := by
        rw [Box.contains_iff]
        simp only [Box.span, Pos.inf, Pos.sup]
        omega
      exact (Box.contains_iff.1 (Box.contains_foldl_cover (.inl htop))).2.1.2

/-- **A prism contains nothing outside of its box.** -/
theorem contains_box {g : Polygon} (hbox : g.box = envelope g.points g.minY g.maxY) {q : Pos}
    (h : g.contains q = true) : g.box.contains q = true := by
  unfold contains at h
  simp only [Bool.and_eq_true, decide_eq_true_eq] at h
  obtain ⟨⟨hlo, hhi⟩, henc⟩ := h
  obtain ⟨⟨a, ha, hax⟩, ⟨b, hb, hbx⟩, ⟨c, hc, hcz⟩, ⟨d, hd, hdz⟩⟩ := encloses_between henc
  obtain ⟨ha1, ha2⟩ := envelope_contains ha g.minY g.maxY
  have hb1 := (envelope_contains hb g.minY g.maxY).1
  have hc1 := (envelope_contains hc g.minY g.maxY).1
  have hd1 := (envelope_contains hd g.minY g.maxY).1
  rw [hbox]
  rw [Box.contains_iff] at ha1 hb1 hc1 hd1 ⊢
  simp only at ha1 hb1 hc1 hd1 hax hbx hcz hdz
  omega

end VoxelEdit.Polygon
