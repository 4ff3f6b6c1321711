import VoxelEdit.Proofs.BorderTurns
import VoxelEdit.Proofs.HullPlanes

/-!
# The planes are the convex hull

* `Hull.Encloses`: half-spaces enclose points if they hold all of them, and if whatever a
  half-space can separate from the points is cut off by one of them.
* `ofPoint_encloses`, `ofLine_encloses`, `ofPlane_encloses`, `ofSpace_encloses`: so do the
  half-spaces that are found for each rank. In a plane two turns of a half-space that separates
  lead to a border through a pair, in space three lead to one through a triple.
* `Convex.contains_iff_blend`: **a convex region holds exactly the blends of its points.**
-/

namespace VoxelEdit

namespace Hull

open HalfSpace

/-- The half-spaces hold the points and cut off whatever can be separated from them. -/
structure Encloses (planes : List HalfSpace) (points : List Pos) : Prop where
  holds : ∀ h ∈ planes, ∀ s ∈ points, h.excess s ≤ 0
  cuts : ∀ (f : HalfSpace) (p : Pos), f.Separates points p → ∃ h ∈ planes, 0 < h.excess p

variable {points : List Pos} {o far q r dir normal : Pos}

/-! ## One point -/

theorem ofPoint_encloses (ho : o ∈ points) (hall : ∀ s ∈ points, s = o) :
    Encloses (ofPoint o) points := by
  -- each closing pair holds a coordinate in place
  have hx : ∀ s, (reduced ⟨1, 0, 0⟩ o.x).excess s = 0 ↔ s.x = o.x := by
    intro s
    rw [reduced_excess_eq_zero]
    simp [Pos.dot]
  have hy : ∀ s, (reduced ⟨0, 1, 0⟩ o.y).excess s = 0 ↔ s.y = o.y := by
    intro s
    rw [reduced_excess_eq_zero]
    simp [Pos.dot]
  have hz : ∀ s, (reduced ⟨0, 0, 1⟩ o.z).excess s = 0 ↔ s.z = o.z := by
    intro s
    rw [reduced_excess_eq_zero]
    simp [Pos.dot]
  refine ⟨?_, ?_⟩
  · intro h hh s hs
    obtain rfl := hall s hs
    unfold ofPoint at hh
    rcases List.mem_append.1 hh with hh | hh
    · rcases List.mem_append.1 hh with hh | hh
      · exact closing_holds hh ((hx _).2 rfl)
      · exact closing_holds hh ((hy _).2 rfl)
    · exact closing_holds hh ((hz _).2 rfl)
  · intro f p hf
    have hne : p ≠ o := by
      rintro rfl
      have h1 := hf.holds _ ho
      have h2 := hf.past
      omega
    have hcoord : p.x ≠ o.x ∨ p.y ≠ o.y ∨ p.z ≠ o.z := by
      by_contra hno
      push Not at hno
      exact hne (Pos.ext hno.1 hno.2.1 hno.2.2)
    rcases hcoord with h | h | h
    · obtain ⟨g, hg, hp⟩ := closing_cuts (mt (hx p).1 h)
      exact ⟨g, List.mem_append_left _ (List.mem_append_left _ hg), hp⟩
    · obtain ⟨g, hg, hp⟩ := closing_cuts (mt (hy p).1 h)
      exact ⟨g, List.mem_append_left _ (List.mem_append_right _ hg), hp⟩
    · obtain ⟨g, hg, hp⟩ := closing_cuts (mt (hz p).1 h)
      exact ⟨g, List.mem_append_right _ hg, hp⟩

/-! ## Points on a line -/

/-- A fold that selects by an order ends at a bound that is one of the items. -/
theorem foldl_bound {f : ℤ → ℤ → ℤ} {r : ℤ → ℤ → Prop} (hrefl : ∀ a, r a a)
    (htrans : ∀ a b c, r a b → r b c → r a c) (hleft : ∀ a b, r a (f a b))
    (hright : ∀ a b, r b (f a b)) (hsel : ∀ a b, f a b = a ∨ f a b = b) (l : List ℤ) (a : ℤ) :
    r a (l.foldl f a) ∧ (∀ b ∈ l, r b (l.foldl f a)) ∧ (l.foldl f a = a ∨ l.foldl f a ∈ l) := by
  induction l generalizing a with
  | nil => exact ⟨hrefl a, by simp, .inl rfl⟩
  | cons b l ih =>
    obtain ⟨h1, h2, h3⟩ := ih (f a b)
    rw [List.foldl_cons]
    refine ⟨htrans _ _ _ (hleft a b) h1, ?_, ?_⟩
    · intro c hc
      rcases List.mem_cons.1 hc with rfl | hc
      · exact htrans _ _ _ (hright a c) h1
      · exact h2 c hc
    · rcases h3 with h3 | h3
      · rw [h3]
        rcases hsel a b with h | h
        · exact .inl h
        · rw [h]
          exact .inr (List.mem_cons_self ..)
      · exact .inr (List.mem_cons_of_mem _ h3)

/-- The ends of points along a direction: both are taken, and nothing lies beyond. -/
theorem ends_spec (ho : o ∈ points) (dir : Pos) :
    ((∀ s ∈ points, dir.dot s ≤ (points.map dir.dot).foldl max (dir.dot o)) ∧
      ∃ s ∈ points, dir.dot s = (points.map dir.dot).foldl max (dir.dot o)) ∧
    (∀ s ∈ points, (points.map dir.dot).foldl min (dir.dot o) ≤ dir.dot s) ∧
      ∃ s ∈ points, dir.dot s = (points.map dir.dot).foldl min (dir.dot o) := by
  have hmax := foldl_bound (f := max) (r := fun a b => a ≤ b) le_refl (fun _ _ _ => le_trans)
    le_max_left le_max_right max_choice (points.map dir.dot) (dir.dot o)
  have hmin := foldl_bound (f := min) (r := fun a b => b ≤ a) le_refl
    (fun _ _ _ h h' => h'.trans h) min_le_left min_le_right min_choice
    (points.map dir.dot) (dir.dot o)
  have hat : ∀ v, (v = dir.dot o ∨ v ∈ points.map dir.dot) → ∃ s ∈ points, dir.dot s = v := by
    rintro v (rfl | hv)
    · exact ⟨o, ho, rfl⟩
    · exact List.mem_map.1 hv
  exact ⟨⟨fun s hs => hmax.2.1 _ (List.mem_map_of_mem hs), hat _ hmax.2.2⟩,
    fun s hs => hmin.2.1 _ (List.mem_map_of_mem hs), hat _ hmin.2.2⟩

/-- The half-spaces of a line: two planes through it, given by perpendicular normals, and its
ends. -/
theorem mem_ofLine (points : List Pos) (o : Pos) {d : Pos} (hd : d ≠ .zero) :
    ∃ n : Pos, n ≠ .zero ∧ n.dot d = 0 ∧ ∀ h, h ∈ ofLine points o d ↔
      ((h ∈ closing (through n o) ∨ h ∈ closing (through (d.cross n) o)) ∨
        supporting? points (reduced d ((points.map d.dot).foldl max (d.dot o))) = some h) ∨
        supporting? points (reduced d ((points.map d.dot).foldl min (d.dot o))) = some h := by
  refine ⟨d.cross (if d.x ≠ 0 || d.y ≠ 0 then ⟨0, 0, 1⟩ else ⟨1, 0, 0⟩), ?_,
    Pos.cross_dot_self _ _, ?_⟩
  · intro h0
    by_cases hxy : (d.x ≠ 0 || d.y ≠ 0) = true
    · rw [if_pos hxy, Pos.ext_iff] at h0
      simp [Pos.cross] at h0 hxy
      omega
    · rw [if_neg hxy, Pos.ext_iff] at h0
      simp [Pos.cross] at h0 hxy
      exact hd (Pos.ext hxy.1 hxy.2 h0.1)
  · intro h
    unfold ofLine
    simp only [mem_support, List.mem_append]
    exact Iff.rfl

/-- On a line, the excess grows or falls steadily, so what is separated lies beyond an end. -/
theorem beyond_end {d : Pos} {f : HalfSpace} {top bot p : Pos} (hd : d ≠ .zero)
    (hall : ∀ s ∈ points, d.cross (s - o) = .zero) (htop : top ∈ points) (hbot : bot ∈ points)
    (hf : f.Separates points p) (hp : d.cross (p - o) = .zero) :
    d.dot top < d.dot p ∨ d.dot p < d.dot bot := by
  have hdd := Pos.dot_self_pos hd
  have hline : ∀ s ∈ points,
      d.dot d * (f.excess s - f.excess p) = (d.dot s - d.dot p) * f.normal.dot d := by
    intro s hs
    have hs' := Pos.dot_self_mul_of_parallel (hall s hs) f.normal
    have hp' := Pos.dot_self_mul_of_parallel hp f.normal
    simp only [Pos.dot_sub, excess] at hs' hp' ⊢
    linear_combination hs' - hp'
  -- between the ends, one of them is further out than `p`
  by_contra hno
  push Not at hno
  have hpast := hf.past
  rcases le_total 0 (f.normal.dot d) with hsign | hsign
  · have h1 : 0 ≤ (d.dot top - d.dot p) * f.normal.dot d := mul_nonneg (by omega) hsign
    rw [← hline top htop] at h1
    have h2 := nonneg_of_mul_nonneg_right h1 hdd
    have h3 := hf.holds top htop
    omega
  · have h1 : 0 ≤ (d.dot bot - d.dot p) * f.normal.dot d :=
      mul_nonneg_of_nonpos_of_nonpos (by omega) hsign
    rw [← hline bot hbot] at h1
    have h2 := nonneg_of_mul_nonneg_right h1 hdd
    have h3 := hf.holds bot hbot
    omega

theorem ofLine_encloses (ho : o ∈ points) (hfar : far ∈ points) (hdir : far - o ≠ .zero)
    (hall : ∀ s ∈ points, (far - o).cross (s - o) = .zero) :
    Encloses (ofLine points o (far - o)) points := by
  set d := far - o with hd
  obtain ⟨n, hn, hnd, hmem⟩ := mem_ofLine points o hdir
  obtain ⟨⟨hle, top, htop, htop'⟩, hge, bot, hbot, hbot'⟩ := ends_spec ho d
  set hi := (points.map d.dot).foldl max (d.dot o)
  set lo := (points.map d.dot).foldl min (d.dot o)
  refine ⟨?_, ?_⟩
  · intro h hh s hs
    rcases (hmem h).1 hh with ((hc | hc) | hc) | hc
    · refine closing_holds hc ((through_excess_eq_zero _ _ _).2 ?_)
      exact Pos.dot_eq_zero_of_parallel hdir (hall s hs) hnd
    · refine closing_holds hc ((through_excess_eq_zero _ _ _).2 ?_)
      exact Pos.dot_eq_zero_of_parallel hdir (hall s hs) (Pos.cross_dot_self _ _)
    · exact supporting?_eq_some hc hs
    · exact supporting?_eq_some hc hs
  · intro f p hf
    by_cases h1 : (through n o).excess p = 0
    swap
    · obtain ⟨g, hg, hp⟩ := closing_cuts h1
      exact ⟨g, (hmem g).2 (.inl (.inl (.inl hg))), hp⟩
    by_cases h2 : (through (d.cross n) o).excess p = 0
    swap
    · obtain ⟨g, hg, hp⟩ := closing_cuts h2
      exact ⟨g, (hmem g).2 (.inl (.inl (.inr hg))), hp⟩
    -- on both planes, and so on the line
    have hpar : d.cross (p - o) = .zero := Pos.cross_eq_zero_of_planes hdir hn hnd
      ((through_excess_eq_zero _ _ _).1 h1) ((through_excess_eq_zero _ _ _).1 h2)
    rcases beyond_end hdir hall htop hbot hf hpar with hp | hp
    · rw [htop'] at hp
      obtain ⟨g, hg, hgp⟩ := reduced_cuts_above hle hp
      exact ⟨g, (hmem g).2 (.inl (.inr hg)), hgp⟩
    · rw [hbot'] at hp
      -- the two points that the direction comes from are not both at the lower end
      have hne : ∃ q ∈ points, d.dot q ≠ lo := by
        by_contra hno
        push Not at hno
        have h3 : d.dot d = d.dot far - d.dot o := by
          rw [hd, Pos.dot_sub]
        have h4 := Pos.dot_self_pos hdir
        have h5 := hno far hfar
        have h6 := hno o ho
        omega
      obtain ⟨g, hg, hgp⟩ := reduced_cuts_below hge hne hp
      exact ⟨g, (hmem g).2 (.inr hg), hgp⟩

/-! ## Points in a plane -/

theorem mem_ofPlane (points : List Pos) (o n : Pos) (h : HalfSpace) :
    h ∈ ofPlane points o n ↔ h ∈ closing (through n o) ∨ ∃ x ∈ pairs points,
      x.2 - x.1 ≠ .zero ∧ supporting? points (through ((x.2 - x.1).cross n) x.1) = some h :=
  mem_support_fold (fun x : Pos × Pos => x.2 - x.1 = .zero)
    (fun x => through ((x.2 - x.1).cross n) x.1) (pairs points) (closing (through n o))

/-- Two turns lead to a border through a pair of points, if not all points are on a line. -/
theorem exists_border_pair (ho : o ∈ points) (hfar : far ∈ points) (hq : q ∈ points)
    (hrank : (far - o).cross (q - o) ≠ .zero) {f : HalfSpace} {p : Pos}
    (hf : f.Separates points p) :
    ∃ f' : HalfSpace, f'.Separates points p ∧ ∃ a b, (a, b) ∈ pairs points ∧ a ∈ points ∧
      b ∈ points ∧ b - a ≠ .zero ∧ f'.excess a = 0 ∧ f'.excess b = 0 := by
  obtain ⟨f₁, hf₁, a, ha, hfa⟩ := hf.to_point ho
  obtain ⟨f₂, hf₂, hfa, b, hb, hfb, hab⟩ := hf₁.to_line hfa
    (exists_off_line ho hfar hq hrank (hf₁.ne ha) p)
  have hne : a ≠ b := by
    rintro rfl
    exact hab (by ext <;> simp [Pos.cross] <;> ring)
  -- the run over pairs may meet the two in the other order
  obtain ⟨a', b', hpair, hperm⟩ := exists_pair ha hb hne
  have htight : ∀ c ∈ [a', b'], c ∈ points ∧ f₂.excess c = 0 := by
    intro c hc
    rcases List.mem_pair.1 (hperm.mem_iff.1 hc) with rfl | rfl
    · exact ⟨ha, hfa⟩
    · exact ⟨hb, hfb⟩
  obtain ⟨ha', hfa'⟩ := htight a' (by simp)
  obtain ⟨hb', hfb'⟩ := htight b' (by simp)
  refine ⟨f₂, hf₂, a', b', hpair, ha', hb', ?_, hfa', hfb'⟩
  intro h0
  have hnodup : [a', b'].Nodup := hperm.nodup_iff.2 (by simp [hne])
  rw [Pos.sub_eq_zero.1 h0] at hnodup
  simp at hnodup

theorem ofPlane_encloses (ho : o ∈ points) (hfar : far ∈ points) (hq : q ∈ points)
    (hrank : (far - o).cross (q - o) ≠ .zero) (hn : normal ≠ .zero)
    (hall : ∀ s ∈ points, normal.dot (s - o) = 0) :
    Encloses (ofPlane points o normal) points := by
  refine ⟨?_, ?_⟩
  · intro h hh s hs
    rcases (mem_ofPlane ..).1 hh with hc | ⟨x, -, -, hc⟩
    · exact closing_holds hc ((through_excess_eq_zero _ _ _).2 (hall s hs))
    · exact supporting?_eq_some hc hs
  · intro f p hf
    by_cases hp : (through normal o).excess p = 0
    swap
    · obtain ⟨g, hg, hgp⟩ := closing_cuts hp
      exact ⟨g, (mem_ofPlane ..).2 (.inl hg), hgp⟩
    have hp := (through_excess_eq_zero _ _ _).1 hp
    obtain ⟨f', hf', a, b, hpair, ha, hb, he, hfa, hfb⟩ :=
      exists_border_pair ho hfar hq hrank hf
    set e := b - a with hedef
    set m := e.cross normal with hm
    have hplane : ∀ c, normal.dot (c - o) = 0 → normal.dot (c - a) = 0 := by
      intro c hc
      have h1 := hall a ha
      rw [Pos.dot_sub] at h1 hc ⊢
      omega
    have hperp : normal.dot e = 0 := hplane b (hall b hb)
    -- in the plane, the half-space is a multiple of the one that the pair gives
    have hmul : ∀ c, normal.dot (c - o) = 0 →
        e.dot e * normal.dot normal * f'.excess c = m.dot (c - a) * m.dot f'.normal := by
      intro c hc
      rw [← f'.dot_sub_eq_excess hfa c]
      refine Pos.dot_mul_of_plane hperp (hplane c hc) ?_
      rw [hedef, f'.dot_sub_eq_excess hfa, hfb]
    have hk : 0 < e.dot e * normal.dot normal :=
      mul_pos (Pos.dot_self_pos he) (Pos.dot_self_pos hn)
    have hmp : m.dot (p - a) ≠ 0 := by
      intro h0
      have h1 := hmul p hp
      rw [h0, zero_mul] at h1
      have h2 := mul_pos hk hf'.past
      omega
    have hprop : ∀ c ∈ points,
        m.dot (p - a) * f'.excess c = f'.excess p * m.dot (c - a) := by
      intro c hc
      have h1 := hmul c (hall c hc)
      have h2 := hmul p hp
      refine mul_left_cancel₀ hk.ne' ?_
      linear_combination m.dot (p - a) * h1 - m.dot (c - a) * h2
    have hoff : ∃ c ∈ points, m.dot (c - a) ≠ 0 := by
      obtain ⟨c, hc, hce⟩ := exists_off_line ho hfar hq hrank he a
      exact ⟨c, hc, fun h0 => hce
        (Pos.cross_eq_zero_of_planes he hn hperp (hplane c (hall c hc)) h0)⟩
    obtain ⟨g, hg, hgp⟩ := through_cuts hf' hprop hmp hoff
    exact ⟨g, (mem_ofPlane ..).2 (.inr ⟨(a, b), hpair, he, hg⟩), hgp⟩

/-! ## Points in space -/

theorem mem_ofSpace (points : List Pos) (h : HalfSpace) :
    h ∈ ofSpace points ↔ ∃ x ∈ triples points, (x.2.1 - x.1).cross (x.2.2 - x.1) ≠ .zero ∧
      supporting? points (through ((x.2.1 - x.1).cross (x.2.2 - x.1)) x.1) = some h := by
  have hfold : h ∈ ofSpace points ↔ h ∈ [] ∨ ∃ x ∈ triples points,
      (x.2.1 - x.1).cross (x.2.2 - x.1) ≠ .zero ∧
        supporting? points (through ((x.2.1 - x.1).cross (x.2.2 - x.1)) x.1) = some h :=
    mem_support_fold (fun x : Pos × Pos × Pos => (x.2.1 - x.1).cross (x.2.2 - x.1) = .zero)
      (fun x => through ((x.2.1 - x.1).cross (x.2.2 - x.1)) x.1) (triples points) []
  rw [hfold]
  simp only [List.not_mem_nil, false_or]

/-- The volume that three points span with a fourth is the same in every order, up to its sign. -/
theorem volume_perm {a b c a' b' c' : Pos} (p : Pos) (h : [a', b', c'].Perm [a, b, c])
    (hvol : ((a - p).cross (b - p)).dot (c - p) ≠ 0) :
    ((a' - p).cross (b' - p)).dot (c' - p) ≠ 0 := by
  have hsq : ((a' - p).cross (b' - p)).dot (c' - p) * ((a' - p).cross (b' - p)).dot (c' - p) =
      ((a - p).cross (b - p)).dot (c - p) * ((a - p).cross (b - p)).dot (c - p) := by
    rcases perm_triple h with ⟨rfl, ⟨rfl, rfl⟩ | ⟨rfl, rfl⟩⟩ | ⟨rfl, ⟨rfl, rfl⟩ | ⟨rfl, rfl⟩⟩ |
      ⟨rfl, ⟨rfl, rfl⟩ | ⟨rfl, rfl⟩⟩ <;> simp only [Pos.dot, Pos.cross] <;> ring
  intro h0
  rw [h0, mul_zero, eq_comm] at hsq
  exact hvol (mul_self_eq_zero.1 hsq)

/-- Three turns lead to a border through a triple of points, if not all points are in a plane. -/
theorem exists_border_triple (ho : o ∈ points) (hfar : far ∈ points) (hq : q ∈ points)
    (hr : r ∈ points) (hrank : ((far - o).cross (q - o)).dot (r - o) ≠ 0) {f : HalfSpace}
    {p : Pos} (hf : f.Separates points p) :
    ∃ f' : HalfSpace, f'.Separates points p ∧ ∃ a b c, (a, b, c) ∈ triples points ∧
      f'.excess a = 0 ∧ f'.excess b = 0 ∧ f'.excess c = 0 ∧
      ((b - a).cross (c - a)).dot (p - a) ≠ 0 := by
  have hline : (far - o).cross (q - o) ≠ .zero := by
    intro h0
    rw [h0] at hrank
    simp [Pos.dot] at hrank
  obtain ⟨f₁, hf₁, a, ha, hfa⟩ := hf.to_point ho
  obtain ⟨f₂, hf₂, hfa, b, hb, hfb, hab⟩ := hf₁.to_line hfa
    (exists_off_line ho hfar hq hline (hf₁.ne ha) p)
  obtain ⟨f₃, hf₃, hfa, hfb, c, hc, hfc, habc⟩ := hf₂.to_plane hfa hfb
    (exists_off_plane ho hfar hq hr hrank hab p)
  have hne : a ≠ b ∧ a ≠ c ∧ b ≠ c := by
    refine ⟨?_, ?_, ?_⟩
    all_goals
      rintro rfl
      apply habc
      simp only [Pos.dot, Pos.cross]
      ring
  -- the run over triples may meet the three in another order
  obtain ⟨a', b', c', htriple, hperm⟩ := exists_triple ha hb hc hne.1 hne.2.1 hne.2.2
  have htight : ∀ t ∈ [a', b', c'], f₃.excess t = 0 := by
    intro t ht
    have ht := hperm.mem_iff.1 ht
    simp only [List.mem_cons, List.not_mem_nil, or_false] at ht
    rcases ht with rfl | rfl | rfl
    · exact hfa
    · exact hfb
    · exact hfc
  refine ⟨f₃, hf₃, a', b', c', htriple, htight a' (by simp), htight b' (by simp),
    htight c' (by simp), ?_⟩
  have hvol := volume_perm p hperm habc
  intro h0
  apply hvol
  simp only [Pos.dot, Pos.cross, Pos.sub_x, Pos.sub_y, Pos.sub_z] at h0 ⊢
  linear_combination -h0

theorem ofSpace_encloses (ho : o ∈ points) (hfar : far ∈ points) (hq : q ∈ points)
    (hr : r ∈ points) (hrank : ((far - o).cross (q - o)).dot (r - o) ≠ 0) :
    Encloses (ofSpace points) points := by
  refine ⟨?_, ?_⟩
  · intro h hh s hs
    obtain ⟨x, -, -, hc⟩ := (mem_ofSpace ..).1 hh
    exact supporting?_eq_some hc hs
  · intro f p hf
    obtain ⟨f', hf', a, b, c, htriple, hfa, hfb, hfc, hnp⟩ :=
      exists_border_triple ho hfar hq hr hrank hf
    have hx : f'.normal.dot (b - a) = 0 := by
      rw [f'.dot_sub_eq_excess hfa, hfb]
    have hy : f'.normal.dot (c - a) = 0 := by
      rw [f'.dot_sub_eq_excess hfa, hfc]
    set n := (b - a).cross (c - a) with hn
    have hn0 : n ≠ .zero := by
      intro h0
      rw [h0] at hnp
      simp [Pos.dot] at hnp
    -- both normals are perpendicular to the two sides, so the half-spaces are proportional
    have hprop : ∀ t ∈ points,
        n.dot (p - a) * f'.excess t = f'.excess p * n.dot (t - a) := by
      intro t _
      rw [← f'.dot_sub_eq_excess hfa t, ← f'.dot_sub_eq_excess hfa p, hn,
        Pos.dot_mul_dot_of_perp hx hy, mul_comm]
    obtain ⟨g, hg, hgp⟩ := through_cuts hf' hprop hnp
      (exists_off_plane ho hfar hq hr hrank hn0 a)
    exact ⟨g, (mem_ofSpace ..).2 ⟨(a, b, c), htriple, hn0, hg⟩, hgp⟩

/-! ## The hull -/

/-- The hull by the rank of its points, told by inner and vector products. -/
theorem ofPoints_cons (o : Pos) (rest : List Pos) : ofPoints (o :: rest) =
    match (o :: rest).find? fun p => p ≠ o with
    | none => ofPoint o
    | some far =>
      match ((o :: rest).map fun p => (far - o).cross (p - o)).find? fun n => n ≠ .zero with
      | none => ofLine (o :: rest) o (far - o)
      | some normal =>
        if (o :: rest).all fun p => normal.dot (p - o) == 0 then ofPlane (o :: rest) o normal
        else ofSpace (o :: rest) := rfl

/-- A normal that is found is not zero, and some point is off the line by it. -/
theorem exists_of_normal {dir o normal : Pos}
    (h : (points.map fun p => dir.cross (p - o)).find? (fun n => n ≠ .zero) = some normal) :
    normal ≠ .zero ∧ ∃ q ∈ points, dir.cross (q - o) = normal :=
  ⟨by simpa using List.find?_some h, List.mem_map.1 (List.mem_of_find?_eq_some h)⟩

/-- **Whatever the rank of the points, the half-spaces enclose them.** -/
theorem ofPoints_encloses (hne : points ≠ []) : Encloses (ofPoints points) points := by
  cases points with
  | nil => exact absurd rfl hne
  | cons o rest =>
    have ho : o ∈ o :: rest := List.mem_cons_self ..
    rw [ofPoints_cons]
    split
    · rename_i hfind
      refine ofPoint_encloses ho fun s hs => ?_
      simpa using List.find?_eq_none.1 hfind s hs
    rename_i far hfind
    have hfar := List.mem_of_find?_eq_some hfind
    have hdir : far - o ≠ .zero := by
      have h := List.find?_some hfind
      simp only [decide_eq_true_eq] at h
      exact mt Pos.sub_eq_zero.1 h
    split
    · rename_i hfind
      refine ofLine_encloses ho hfar hdir fun s hs => ?_
      simpa using List.find?_eq_none.1 hfind _ (List.mem_map_of_mem hs)
    rename_i normal hfind
    obtain ⟨hn, q, hq, hnormal⟩ := exists_of_normal hfind
    split
    · rename_i hflat
      refine ofPlane_encloses ho hfar hq (hnormal ▸ hn) hn fun s hs => ?_
      simpa using List.all_eq_true.1 hflat s hs
    · rename_i hflat
      rw [Bool.not_eq_true, List.all_eq_false] at hflat
      obtain ⟨r, hr, hrank⟩ := hflat
      refine ofSpace_encloses ho hfar hq hr ?_
      rw [hnormal]
      simpa using hrank

end Hull

namespace Convex

open HalfSpace

variable {points : List Pos} {p : Pos}

theorem envelope_contains {s : Pos} (hs : s ∈ points) : (envelope points).contains s = true := by
  cases points with
  | nil => exact absurd hs (by simp)
  | cons t ps =>
    refine Box.contains_foldl_cover ?_
    rcases List.mem_cons.1 hs with rfl | hs
    · left
      rw [Box.contains_iff]
      simp [Box.point]
    · exact .inr hs

/-- A box that contains all points contains their blends. -/
theorem contains_of_blend {b : Box} (hp : p.Blend points)
    (hb : ∀ s ∈ points, b.contains s = true) : b.contains p = true := by
  -- each of the six sides is a half-space
  have side : ∀ (n : Pos) (o : ℤ), (∀ s, b.contains s = true → n.dot s ≤ o) → n.dot p ≤ o := by
    intro n o hle
    have h := hp.excess_le (h := ⟨n, o⟩) fun s hs => sub_nonpos.2 (hle s (hb s hs))
    exact sub_nonpos.1 h
  simp only [Box.contains_iff] at side ⊢
  have hx := side ⟨1, 0, 0⟩ b.max.x fun s hs => by simp [Pos.dot]; omega
  have hx' := side ⟨-1, 0, 0⟩ (-b.min.x) fun s hs => by simp [Pos.dot]; omega
  have hy := side ⟨0, 1, 0⟩ b.max.y fun s hs => by simp [Pos.dot]; omega
  have hy' := side ⟨0, -1, 0⟩ (-b.min.y) fun s hs => by simp [Pos.dot]; omega
  have hz := side ⟨0, 0, 1⟩ b.max.z fun s hs => by simp [Pos.dot]; omega
  have hz' := side ⟨0, 0, -1⟩ (-b.min.z) fun s hs => by simp [Pos.dot]; omega
  simp [Pos.dot] at hx hx' hy hy' hz hz'
  omega

/-- **A convex region is the convex hull of its points.** It holds exactly the positions that are
convex combinations of them with rational weights, whether the points span space, a plane or a
line, or are all the same. -/
theorem contains_iff_blend (hne : points ≠ []) (p : Pos) :
    (ofPoints points).contains p = true ↔ p.Blend points := by
  have henc := Hull.ofPoints_encloses hne
  have hiff : (ofPoints points).contains p = true ↔
      (envelope points).contains p = true ∧ ∀ h ∈ Hull.ofPoints points, h.excess p ≤ 0 := by
    unfold contains ofPoints
    simp only [Bool.and_eq_true, List.all_eq_true, holds_iff]
  rw [hiff]
  constructor
  · -- what is no blend can be separated, and one of the half-spaces cuts it off
    rintro ⟨-, hall⟩
    by_contra hno
    obtain ⟨f, hf⟩ := exists_separates hno
    obtain ⟨h, hh, hpast⟩ := henc.cuts f p hf
    have := hall h hh
    omega
  · intro hp
    refine ⟨contains_of_blend hp fun s hs => envelope_contains hs, fun h hh => ?_⟩
    exact hp.excess_le (henc.holds h hh)

/-- A position inside a tetrahedron is a blend of its corners, and one beside it is not. -/
theorem contains_iff_blend_tetrahedron :
    let corners : List Pos := [⟨0, 0, 0⟩, ⟨4, 0, 0⟩, ⟨0, 4, 0⟩, ⟨1, 1, 0⟩, ⟨0, 0, 4⟩]
    corners ≠ [] ∧ (⟨1, 1, 1⟩ : Pos).Blend corners ∧ ¬ (⟨2, 2, 1⟩ : Pos).Blend corners := by
  intro corners
  have hne : corners ≠ [] := by decide
  refine ⟨hne, ?_, ?_⟩
  · rw [← contains_iff_blend hne]
    decide
  · rw [← contains_iff_blend hne]
    decide

end Convex

end VoxelEdit
