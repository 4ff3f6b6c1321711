import Mathlib.Data.Finset.Max
import Mathlib.Data.Int.Order.Units
import VoxelEdit.Proofs.OutlineSymmetry

/-!
# Convex outlines

An outline is convex if it turns the same way everywhere. What it encloses is then what lies on that
side of every edge.

* `exists_low`: such a column is not below all vertices, since the two edges at the lowest one meet
  there. By a mirror image it is not above them all.
* `rises_once`: **a convex outline passes a row upwards only once.** Two edges that do would each have
  the other one on the same side of it.
* `encloses_of_rising`: of the edges at a column inside, the ray crosses those that pass its row
  upwards, which is one.
* `contains_iff_sides`: **a prism with a convex outline contains what lies between its ends and on the
  same side of every edge or on it.**
-/

namespace VoxelEdit.Polygon

variable {points points' : List Column} {p a b : Column} {o : ℤˣ}

/-- An outline with three vertices or more that turns the same way everywhere: all vertices but the
ends of an edge lie strictly on one side of it, which is the same side for each edge. A rotation of
the outline begins with an edge, and goes on with the other vertices. -/
structure ConvexOutline (o : ℤˣ) (points : List Column) : Prop where
  corners : 3 ≤ points.length
  strict : ∀ a b rest, points.IsRotated (a :: b :: rest) → ∀ c ∈ rest, 0 < o * area c a b

instance (o : ℤˣ) (points : List Column) : Decidable (ConvexOutline o points) :=
  decidable_of_iff (3 ≤ points.length ∧ ∀ l ∈ points.cyclicPermutations, ∀ c ∈ l.drop 2,
      0 < o * area c (l.getD 0 c) (l.getD 1 c)) <| by
    constructor
    · rintro ⟨hlen, hall⟩
      exact ⟨hlen, fun a b rest hedge => hall _ (List.mem_cyclicPermutations_iff.2 hedge.symm)⟩
    · intro h
      refine ⟨h.corners, fun l hl c hc => ?_⟩
      match l, hc with
      | a :: b :: rest, hc => exact h.strict a b rest (List.mem_cyclicPermutations_iff.1 hl).symm c hc

/-- On one side of every edge or on its line. -/
def Within (o : ℤˣ) (points : List Column) (p : Column) : Prop :=
  ∀ a b rest, points.IsRotated (a :: b :: rest) → 0 ≤ o * area p a b

/-! ## Mirror images -/

theorem isRotated_of_mirror {axis : Axis}
    (h : (points.map (Column.mirror axis)).IsRotated points') :
    points.IsRotated (points'.map (Column.mirror axis)) := by
  have hid : Column.mirror axis ∘ Column.mirror axis = id := funext (Column.mirror_mirror axis)
  have hback := h.map (Column.mirror axis)
  rw [List.map_map, hid, List.map_id] at hback
  exact hback

/-- A mirror image turns the other way. -/
theorem ConvexOutline.mirror {axis : Axis} (haxis : axis ≠ .y) (h : ConvexOutline o points) :
    ConvexOutline (-o) (points.map (Column.mirror axis)) where
  corners := by
    rw [List.length_map]
    exact h.corners
  strict := by
    intro a b rest hedge c hc
    have hside := h.strict _ _ _ (isRotated_of_mirror hedge) _ (List.mem_map_of_mem hc)
    rw [area_mirror haxis, mul_neg, ← neg_mul, ← Units.val_neg] at hside
    exact hside

theorem Within.mirror {axis : Axis} (haxis : axis ≠ .y) (hp : Within o points p) :
    Within (-o) (points.map (Column.mirror axis)) (p.mirror axis) := by
  intro a b rest hedge
  have hside := hp _ _ _ (isRotated_of_mirror hedge)
  rw [← Column.mirror_mirror axis p, area_mirror haxis, mul_neg, ← neg_mul, ← Units.val_neg] at hside
  exact hside

/-! ## Corners -/

/-- The vertices of a convex outline are themselves on that side of every edge. -/
theorem ConvexOutline.within (h : ConvexOutline o points) {c : Column} (hc : c ∈ points) :
    Within o points c := by
  intro a b rest hedge
  rcases List.mem_cons.1 (hedge.mem_iff.1 hc) with rfl | hc
  · rw [area_start, mul_zero]
  rcases List.mem_cons.1 hc with rfl | hc
  · rw [area_end, mul_zero]
  · exact (h.strict a b rest hedge c hc).le

/-- Each vertex has one before it and one after it. -/
theorem exists_corner (hlen : 3 ≤ points.length) {v : Column} (hv : v ∈ points) :
    ∃ u w rest, points.IsRotated (u :: v :: w :: rest) := by
  obtain ⟨s, t, rfl⟩ := List.append_of_mem hv
  have hfront : (s ++ v :: t).IsRotated (v :: (t ++ s)) := List.isRotated_append
  have hlen' : 2 ≤ (t ++ s).length := by
    rw [List.length_append, List.length_cons] at hlen
    rw [List.length_append]
    omega
  cases hothers : t ++ s with
  | nil =>
    rw [hothers] at hlen'
    simp at hlen'
  | cons w m =>
    rcases List.eq_nil_or_concat' m with rfl | ⟨rest, u, rfl⟩
    · rw [hothers] at hlen'
      simp at hlen'
    · rw [hothers] at hfront
      exact ⟨u, w, rest, hfront.trans (List.isRotated_concat u (v :: w :: rest))⟩

/-- The height of a column over a corner, as a mix of the heights of its two edges. -/
theorem corner_level (u v w p : Column) :
    area w u v * (p.z - v.z) = area p u v * (w.z - v.z) + area p v w * (u.z - v.z) := by
  unfold area
  ring

/-- **What lies on that side of every edge is not below all vertices.** -/
theorem exists_low (h : ConvexOutline o points) (hp : Within o points p) : ∃ c ∈ points, c.z ≤ p.z := by
  have hne : points.toFinset.Nonempty := by
    rw [List.toFinset_nonempty_iff, ← List.length_pos_iff]
    have hlen := h.corners
    omega
  obtain ⟨v, hv, hmin⟩ := points.toFinset.exists_min_image (fun c => c.z) hne
  have hlowest : ∀ c ∈ points, v.z ≤ c.z := fun c hc => hmin c (List.mem_toFinset.2 hc)
  obtain ⟨u, w, rest, hr⟩ := exists_corner h.corners (List.mem_toFinset.1 hv)
  have hu : 0 ≤ u.z - v.z := by
    have hmem : u ∈ points := hr.mem_iff.2 List.mem_cons_self
    have hle := hlowest u hmem
    omega
  have hw : 0 ≤ w.z - v.z := by
    have hmem : w ∈ points := hr.mem_iff.2 (by simp)
    have hle := hlowest w hmem
    omega
  have hturn : 0 < o * area w u v := h.strict u v (w :: rest) hr w List.mem_cons_self
  have hbefore : 0 ≤ o * area p u v := hp u v (w :: rest) hr
  have hafter : 0 ≤ o * area p v w :=
    hp v w (rest ++ [u]) (hr.trans (List.isRotated_concat u (v :: w :: rest)).symm)
  have hmix : o * area w u v * (p.z - v.z) =
      o * area p u v * (w.z - v.z) + o * area p v w * (u.z - v.z) := by
    linear_combination (o : ℤ) * corner_level u v w p
  have hnonneg : 0 ≤ o * area w u v * (p.z - v.z) := by
    rw [hmix]
    exact add_nonneg (mul_nonneg hbefore hw) (mul_nonneg hafter hu)
  have hover : 0 ≤ p.z - v.z := (mul_nonneg_iff_of_pos_left hturn).1 hnonneg
  exact ⟨v, List.mem_toFinset.1 hv, by omega⟩

/-- The vertices are not all on one row. -/
theorem exists_off_row (h : ConvexOutline o points) (t : ℤ) : ∃ c ∈ points, c.z ≠ t := by
  by_contra hnone
  have hrow : ∀ c ∈ points, c.z = t := by
    intro c hc
    by_contra hoff
    exact hnone ⟨c, hc, hoff⟩
  match points, h.corners, hrow, h with
  | a :: b :: c :: rest, _, hrow, h =>
    have hturn := h.strict a b (c :: rest) (List.IsRotated.refl _) c List.mem_cons_self
    have ha : a.z = t := hrow a (by simp)
    have hb : b.z = t := hrow b (by simp)
    have hc : c.z = t := hrow c (by simp)
    have harea : area c a b = 0 := by
      unfold area
      rw [ha, hb, hc]
      ring
    rw [harea, mul_zero] at hturn
    exact lt_irrefl 0 hturn

/-! ## Rising edges -/

variable {t : ℤ}

/-- A walk from a vertex up to a row to one above it has an edge that passes the row. -/
theorem exists_rise {l : List Column} {d : Column} (ha : a.z ≤ t) (hd : d ∈ l) (habove : t < d.z) :
    ∃ s b c r, a :: l = s ++ b :: c :: r ∧ b.z ≤ t ∧ t < c.z := by
  induction l generalizing a with
  | nil => exact nomatch hd
  | cons c l ih =>
    by_cases hc : t < c.z
    · exact ⟨[], a, c, l, rfl, ha, hc⟩
    · have hmem : d ∈ l := by
        rcases List.mem_cons.1 hd with rfl | hmem
        · exact absurd habove hc
        · exact hmem
      have hc : c.z ≤ t := not_lt.1 hc
      obtain ⟨s, b, c', r, hsplit, hb, hc'⟩ := ih hc hmem
      exact ⟨a :: s, b, c', r, congrArg (a :: ·) hsplit, hb, hc'⟩

/-- An outline that reaches above a row and not only above it rises past the row somewhere. -/
theorem exists_rising (hlow : ∃ c ∈ points, c.z ≤ t) (hhigh : ∃ d ∈ points, t < d.z) :
    ∃ a b rest, points.IsRotated (a :: b :: rest) ∧ a.z ≤ t ∧ t < b.z := by
  obtain ⟨c, hc, hlow⟩ := hlow
  obtain ⟨d, hd, hhigh⟩ := hhigh
  obtain ⟨s, t', rfl⟩ := List.append_of_mem hc
  have hfront : (s ++ c :: t').IsRotated (c :: (t' ++ s)) := List.isRotated_append
  have hmem : d ∈ t' ++ s := by
    rcases List.mem_cons.1 (hfront.mem_iff.1 hd) with rfl | hmem
    · omega
    · exact hmem
  obtain ⟨s', a, b, r, hsplit, ha, hb⟩ := exists_rise hlow hmem hhigh
  rw [hsplit] at hfront
  exact ⟨a, b, r ++ s', hfront.trans List.isRotated_append, ha, hb⟩

/-- Where two edges pass a row, each is as far to the side of the other one. -/
theorem rises_apart (a b c d : Column) (t : ℤ) :
    (d.z - t) * area c a b + (t - c.z) * area d a b +
      ((b.z - t) * area a c d + (t - a.z) * area b c d) = 0 := by
  unfold area
  ring

/-- **A convex outline passes a row upwards only once.** -/
theorem rises_once (h : ConvexOutline o points) {rest : List Column}
    (hr : points.IsRotated (a :: b :: rest)) (ha : a.z ≤ t) (hb : t < b.z) {c d : Column}
    (he : (d, c) ∈ path b rest) : ¬ (c.z ≤ t ∧ t < d.z) := by
  rintro ⟨hlo, hhi⟩
  obtain ⟨s, r, hsplit⟩ := path_split he
  have hother : points.IsRotated (c :: d :: (r ++ a :: s)) := by
    have hrot : (a :: s ++ c :: d :: r).IsRotated (c :: d :: r ++ a :: s) := List.isRotated_append
    rw [hsplit] at hr
    exact hr.trans hrot
  have hbmem : b ∈ points := hr.mem_iff.2 (by simp)
  have hcmem : c ∈ points := hother.mem_iff.2 (by simp)
  have hdmem : d ∈ points := hother.mem_iff.2 (by simp)
  have hac : 0 < o * area a c d := h.strict c d _ hother a (by simp)
  have hbc : 0 ≤ o * area b c d := h.within hbmem c d _ hother
  have hca : 0 ≤ o * area c a b := h.within hcmem a b _ hr
  have hda : 0 ≤ o * area d a b := h.within hdmem a b _ hr
  have hsum : (d.z - t) * (o * area c a b) + (t - c.z) * (o * area d a b) +
      ((b.z - t) * (o * area a c d) + (t - a.z) * (o * area b c d)) = 0 := by
    linear_combination (o : ℤ) * rises_apart a b c d t
  have h1 : 0 ≤ (d.z - t) * (o * area c a b) := mul_nonneg (by omega) hca
  have h2 : 0 ≤ (t - c.z) * (o * area d a b) := mul_nonneg (by omega) hda
  have h3 : 0 < (b.z - t) * (o * area a c d) := mul_pos (by omega) hac
  have h4 : 0 ≤ (t - a.z) * (o * area b c d) := mul_nonneg (by omega) hbc
  omega

/-! ## Inside -/

/-- From a column on the inner side of an edge and not on it, the ray crosses the edge if it rises
past the row. -/
theorem crosses_iff_rises (hside : 0 ≤ area p a b) (hoff : onSegment p b a = false) :
    crosses p b a = true ↔ a.z ≤ p.z ∧ p.z < b.z := by
  rw [crosses_swap, crosses_iff_area]
  constructor
  · rintro (⟨hlo, hhi, -⟩ | ⟨-, -, hneg⟩)
    · exact ⟨hlo, hhi⟩
    · omega
  · rintro ⟨hlo, hhi⟩
    have hne : area p a b ≠ 0 := by
      intro hzero
      rw [onSegment_swap, onSegment_of_level hzero (by omega) (by omega) (by omega)] at hoff
      exact nomatch hoff
    exact .inl ⟨hlo, hhi, by omega⟩

/-- **A column on the inner side of every edge is enclosed, if an edge rises past its row.** -/
theorem encloses_of_rising {rest : List Column} (h : ConvexOutline 1 points) (hp : Within 1 points p)
    (hr : points.IsRotated (a :: b :: rest)) (ha : a.z ≤ p.z) (hb : p.z < b.z) :
    encloses points p = true := by
  have hsame : encloses (a :: b :: rest) p = encloses points p := by
    obtain ⟨n, hn⟩ := hr
    rw [← hn, encloses_rotate]
  rw [← hsame, encloses_iff]
  by_cases hon : ∃ e ∈ ring (a :: b :: rest), onSegment p e.1 e.2 = true
  · exact .inl hon
  right
  have hcross : ∀ e ∈ ring (a :: b :: rest),
      (crosses p e.1 e.2 = true ↔ e.2.z ≤ p.z ∧ p.z < e.1.z) := by
    intro e he
    obtain ⟨rest', hedge⟩ := isRotated_of_mem_ring (by simp) he
    have hside := hp _ _ _ (hr.trans hedge)
    rw [Units.val_one, one_mul] at hside
    exact crosses_iff_rises hside (Bool.eq_false_iff.2 fun hyes => hon ⟨e, he, hyes⟩)
  rw [ring_cons, path_cons] at hcross ⊢
  have hlast : crosses p a ((b :: rest).getLastD a) = false := by
    rw [Bool.eq_false_iff, ne_eq, hcross (a, (b :: rest).getLastD a) List.mem_cons_self]
    exact fun hup => absurd hup.2 (not_lt.2 ha)
  have hfirst : crosses p b a = true := (hcross (b, a) (by simp)).2 ⟨ha, hb⟩
  have hothers : (path b rest).countP (fun e => crosses p e.1 e.2) = 0 := by
    refine List.countP_eq_zero.2 fun e he => ?_
    rw [hcross e (by simp [he])]
    exact rises_once h hr ha hb he
  rw [List.countP_cons, List.countP_cons, hothers, hlast, hfirst]
  rfl

/-- **A column on the same side of every edge is enclosed, if the outline passes its row.** -/
theorem encloses_of_passing (h : ConvexOutline o points) (hp : Within o points p)
    (hlow : ∃ c ∈ points, c.z ≤ p.z) (hhigh : ∃ d ∈ points, p.z < d.z) :
    encloses points p = true := by
  rcases Int.units_eq_one_or o with rfl | rfl
  · obtain ⟨a, b, rest, hr, ha, hb⟩ := exists_rising hlow hhigh
    exact encloses_of_rising h hp hr ha hb
  · -- the mirror image turns the way that the ray counts
    have hmirror := h.mirror (show Axis.x ≠ .y by decide)
    have hp' := hp.mirror (show Axis.x ≠ .y by decide)
    rw [neg_neg] at hmirror hp'
    obtain ⟨c, hc, hlow⟩ := hlow
    obtain ⟨d, hd, hhigh⟩ := hhigh
    obtain ⟨a, b, rest, hr, ha, hb⟩ := exists_rising
      ⟨c.mirror .x, List.mem_map_of_mem hc, hlow⟩ ⟨d.mirror .x, List.mem_map_of_mem hd, hhigh⟩
    rw [← encloses_mirror .x]
    exact encloses_of_rising hmirror hp' hr ha hb

/-- **A column on the same side of every edge or on it is enclosed.** -/
theorem encloses_of_within (h : ConvexOutline o points) (hp : Within o points p) :
    encloses points p = true := by
  by_cases hhigh : ∃ d ∈ points, p.z < d.z
  · exact encloses_of_passing h hp (exists_low h hp) hhigh
  · -- on the highest row the outline rises past the row in its other mirror image
    have hmirror := h.mirror (show Axis.z ≠ .y by decide)
    have hp' := hp.mirror (show Axis.z ≠ .y by decide)
    obtain ⟨d, hd, hoff⟩ := exists_off_row h p.z
    have hbelow : d.z < p.z := by
      have hnot : ¬ p.z < d.z := fun hlt => hhigh ⟨d, hd, hlt⟩
      omega
    rw [← encloses_mirror .z]
    exact encloses_of_passing hmirror hp' (exists_low hmirror hp')
      ⟨d.mirror .z, List.mem_map_of_mem hd, neg_lt_neg hbelow⟩

/-- All vertices of a convex outline lie on one side of each edge, and so does what it encloses. -/
theorem within_of_encloses (h : ConvexOutline o points) (hin : encloses points p = true) :
    Within o points p := by
  intro a b rest hedge
  have hall : ∀ c ∈ points, o * (b.z - a.z) * c.x + -(o * (b.x - a.x)) * c.z ≤
      o * (b.z - a.z) * a.x + -(o * (b.x - a.x)) * a.z := by
    intro c hc
    have hside := h.within hc a b rest hedge
    unfold area at hside
    linarith
  have hside := encloses_halfplane hall hin
  unfold area
  linarith

/-- **A prism with a convex outline contains exactly what lies between its ends and on the same side
of every edge or on it**, whichever way the outline runs. -/
theorem contains_iff_sides (g : Polygon) (h : ConvexOutline o g.points) (p : Pos) :
    g.contains p = true ↔ (g.minY ≤ p.y ∧ p.y ≤ g.maxY) ∧
      ∀ a b rest, g.points.IsRotated (a :: b :: rest) → 0 ≤ o * area ⟨p.x, p.z⟩ a b := by
  have hinside : encloses g.points ⟨p.x, p.z⟩ = true ↔ Within o g.points ⟨p.x, p.z⟩ :=
    ⟨within_of_encloses h, encloses_of_within h⟩
  unfold contains
  rw [Bool.and_eq_true, Bool.and_eq_true, decide_eq_true_eq, decide_eq_true_eq, hinside]
  exact Iff.rfl

/-- A column right between two vertices of a diamond, on their row, is within all its sides, and one
beside its lowest vertex is not. -/
theorem contains_iff_sides_diamond :
    let g : Polygon := .make [⟨2, 0⟩, ⟨4, 2⟩, ⟨2, 4⟩, ⟨0, 2⟩] 0 5
    ConvexOutline 1 g.points ∧ Within 1 g.points ⟨1, 2⟩ ∧ ¬ Within 1 g.points ⟨3, 0⟩ := by
  intro g
  have hconvex : ConvexOutline 1 g.points := by decide
  have hinside := (contains_iff_sides g hconvex ⟨1, 0, 2⟩).1 (by decide)
  refine ⟨hconvex, hinside.2, ?_⟩
  intro hwithin
  have houtside := (contains_iff_sides g hconvex ⟨3, 0, 0⟩).2 ⟨by decide, hwithin⟩
  exact absurd houtside (by decide)

end VoxelEdit.Polygon
