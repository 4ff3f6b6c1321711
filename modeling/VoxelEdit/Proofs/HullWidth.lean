import VoxelEdit.Proofs.ConvexHull
import VoxelEdit.Proofs.FixedWidth
import VoxelEdit.Region.Width

/-!
# Hulls with numbers of fixed width

A hull of points with coordinates of 32 bits is computed with numbers of 128 bits.

* `Pos.dot?_attains`, `Pos.cross?_attains`: a product of vectors is safe if a bound on it fits.
* `HalfSpace.support?_attains`: a half-space is tested safely if its normal is short enough.
* `Hull.ofLine?_attains`, `Hull.ofSpace?_attains`, `Hull.ofPlane?_attains`: the normals of a line are
  products of three coordinates at most, in space they are products of two. In a plane they are products
  of three, and with a fourth one they fit only if the coordinates have no more than 31 bits.
* `Hull.ofPoints?_attains`: **a hull that comes out is the one with exact numbers, and it comes out
  unless the points are flat.** If they are flat it does so where the coordinates are small enough.
-/

namespace VoxelEdit

open Number

variable {safe : Prop} {k l m o : ℤ}

/-! ## Vectors -/

/-- No coordinate is more than `m` away from zero. -/
structure Pos.Near (m : ℤ) (p : Pos) : Prop where
  x : |p.x| ≤ m
  y : |p.y| ≤ m
  z : |p.z| ≤ m

namespace Pos

variable {u v : Pos}

theorem Near.mono (hu : u.Near k) (hkl : k ≤ l) : u.Near l :=
  ⟨hu.x.trans hkl, hu.y.trans hkl, hu.z.trans hkl⟩

theorem Near.neg (hu : u.Near k) : (-u).Near k :=
  ⟨(abs_neg u.x).trans_le hu.x, (abs_neg u.y).trans_le hu.y, (abs_neg u.z).trans_le hu.z⟩

theorem Near.sub (hu : u.Near m) (hv : v.Near m) : (u - v).Near (2 * m) :=
  ⟨abs_sub_le_of_abs_le hu.x hv.x, abs_sub_le_of_abs_le hu.y hv.y, abs_sub_le_of_abs_le hu.z hv.z⟩

theorem Near.cross (hu : u.Near k) (hv : v.Near l) : (u.cross v).Near (2 * (k * l)) :=
  ⟨abs_sub_le_of_abs_le (abs_mul_le_of_abs_le hu.y hv.z) (abs_mul_le_of_abs_le hu.z hv.y),
    abs_sub_le_of_abs_le (abs_mul_le_of_abs_le hu.z hv.x) (abs_mul_le_of_abs_le hu.x hv.z),
    abs_sub_le_of_abs_le (abs_mul_le_of_abs_le hu.x hv.y) (abs_mul_le_of_abs_le hu.y hv.x)⟩

/-- The sides of a triangle have a smaller product than any two vectors of their lengths. -/
theorem Near.cross_of_sub (hu : u.Near k) (hv : v.Near k) (huv : (u - v).Near k) :
    (u.cross v).Near (k * k) :=
  ⟨abs_det_le hu.y hv.y huv.y hu.z hv.z huv.z, abs_det_le hu.z hv.z huv.z hu.x hv.x huv.x,
    abs_det_le hu.x hv.x huv.x hu.y hv.y huv.y⟩

theorem abs_dot_le (hu : u.Near k) (hv : v.Near l) : |u.dot v| ≤ 3 * (k * l) := by
  have hx := abs_mul_le_of_abs_le hu.x hv.x
  have hy := abs_mul_le_of_abs_le hu.y hv.y
  have hz := abs_mul_le_of_abs_le hu.z hv.z
  have hxyz := abs_add_three (u.x * v.x) (u.y * v.y) (u.z * v.z)
  unfold dot
  omega

theorem fit?_attains (h : safe → u.Near k) (hk : k < 2 ^ 127) : Attains safe u.fit? u := by
  unfold Pos.fit?
  refine .bind (.fit? fun hs => .of_abs_le (h hs).x hk) ?_
  refine .bind (.fit? fun hs => .of_abs_le (h hs).y hk) ?_
  exact .bind (.fit? fun hs => .of_abs_le (h hs).z hk) (.done _ _)

theorem sub?_attains (h : safe → u.Near m ∧ v.Near m) (hm : 2 * m < 2 ^ 127) :
    Attains safe (u.sub? v) (u - v) :=
  fit?_attains (fun hs => (h hs).1.sub (h hs).2) hm

/-- A product of two coordinates is no greater than a product of vectors may be. -/
theorem fits_mul {a b n : ℤ} (ha : |a| ≤ k) (hb : |b| ≤ l) (hn : 1 ≤ n)
    (hkl : n * (k * l) < 2 ^ 127) : Fits 128 (a * b) := by
  have hpos : 0 ≤ k * l := mul_nonneg ((abs_nonneg a).trans ha) ((abs_nonneg b).trans hb)
  have hle : k * l ≤ n * (k * l) := le_mul_of_one_le_left hpos hn
  exact .of_abs_le (abs_mul_le_of_abs_le ha hb) (hle.trans_lt hkl)

theorem minor?_attains {a b c d : ℤ} (h : safe → (|a| ≤ k ∧ |b| ≤ l) ∧ |c| ≤ k ∧ |d| ≤ l)
    (hkl : 2 * (k * l) < 2 ^ 127) : Attains safe (minor? a b c d) (a * b - c * d) := by
  unfold minor?
  refine .bind (.fit? fun hs => ?_) (.bind (.fit? fun hs => ?_) (.fit? fun hs => ?_))
  · exact fits_mul (h hs).1.1 (h hs).1.2 (by decide) hkl
  · exact fits_mul (h hs).2.1 (h hs).2.2 (by decide) hkl
  · obtain ⟨⟨ha, hb⟩, hc, hd⟩ := h hs
    exact .of_abs_le (abs_sub_le_of_abs_le (abs_mul_le_of_abs_le ha hb) (abs_mul_le_of_abs_le hc hd)) hkl

theorem cross?_attains (h : safe → u.Near k ∧ v.Near l) (hkl : 2 * (k * l) < 2 ^ 127) :
    Attains safe (u.cross? v) (u.cross v) := by
  unfold cross?
  refine .bind (minor?_attains (fun hs => ?_) hkl) (.bind (minor?_attains (fun hs => ?_) hkl)
    (.bind (minor?_attains (fun hs => ?_) hkl) (.done _ _)))
  · exact ⟨⟨(h hs).1.y, (h hs).2.z⟩, (h hs).1.z, (h hs).2.y⟩
  · exact ⟨⟨(h hs).1.z, (h hs).2.x⟩, (h hs).1.x, (h hs).2.z⟩
  · exact ⟨⟨(h hs).1.x, (h hs).2.y⟩, (h hs).1.y, (h hs).2.x⟩

theorem dot?_attains (h : safe → u.Near k ∧ v.Near l) (hkl : 3 * (k * l) < 2 ^ 127) :
    Attains safe (u.dot? v) (u.dot v) := by
  unfold dot?
  refine .bind (.fit? fun hs => ?_) (.bind (.fit? fun hs => ?_) (.bind (.fit? fun hs => ?_)
    (.bind (.fit? fun hs => ?_) (.fit? fun hs => ?_))))
  · exact fits_mul (h hs).1.x (h hs).2.x (by decide) hkl
  · exact fits_mul (h hs).1.y (h hs).2.y (by decide) hkl
  · obtain ⟨hu, hv⟩ := h hs
    have hx := abs_mul_le_of_abs_le hu.x hv.x
    have hy := abs_mul_le_of_abs_le hu.y hv.y
    have hxy := abs_add_le (u.x * v.x) (u.y * v.y)
    have hpos := (abs_nonneg _).trans hx
    exact .of_abs_le (b := 2 * (k * l)) (by omega) (by omega)
  · exact fits_mul (h hs).1.z (h hs).2.z (by decide) hkl
  · exact .of_abs_le (abs_dot_le (h hs).1 (h hs).2) hkl

end Pos

/-! ## Half-spaces -/

/-- The normal has no coordinate above `k`, and the offset is at most `o`, whatever their signs. -/
structure HalfSpace.Near (k o : ℤ) (h : HalfSpace) : Prop where
  normal : h.normal.Near k
  offset : |h.offset| ≤ o

namespace HalfSpace

variable {points : List Pos} {planes : List HalfSpace} {h s : HalfSpace} {n a p : Pos}

theorem Near.flipped (hh : h.Near k o) : h.flipped.Near k o :=
  ⟨hh.normal.neg, (abs_neg h.offset).trans_le hh.offset⟩

/-- Lowest terms are no larger. -/
theorem reduced_near {v : ℤ} (hn : n.Near k) (hv : |v| ≤ o) : (reduced n v).Near k o := by
  unfold reduced
  simp only
  split
  · exact ⟨⟨(Int.abs_ediv_le_abs _ _).trans hn.x, (Int.abs_ediv_le_abs _ _).trans hn.y,
      (Int.abs_ediv_le_abs _ _).trans hn.z⟩, (Int.abs_ediv_le_abs _ _).trans hv⟩
  · exact ⟨hn, hv⟩

theorem through_near (hn : n.Near k) (ha : a.Near m) : (through n a).Near k (3 * (k * m)) :=
  reduced_near hn (Pos.abs_dot_le hn ha)

theorem near_of_closing (hh : h.Near k o) (hs : s ∈ closing h) : s.Near k o := by
  rcases List.mem_pair.1 hs with rfl | rfl
  · exact hh
  · exact hh.flipped

theorem near_of_supporting (hh : h.Near k o) (hs : supporting? points h = some s) : s.Near k o := by
  unfold supporting? at hs
  simp only at hs
  split at hs
  · exact nomatch hs
  · rw [← Option.some.inj hs]
    split
    · exact hh.flipped
    · exact hh

theorem reduced?_attains {v : ℤ} (h : safe → n.Near k ∧ |v| ≤ o) (hk : k < 2 ^ 127)
    (ho : o < 2 ^ 127) : Attains safe (reduced? n v) (reduced n v) := by
  unfold reduced?
  split
  · exact .done _ _
  · rename_i hfits
    refine .inr ⟨fun hs => hfits ?_, rfl⟩
    obtain ⟨hn, hv⟩ := h hs
    have hsize {w l : ℤ} (hw : |w| ≤ l) (hl : l < 2 ^ 127) : Fits 128 w.natAbs := by
      rw [Int.abs_eq_natAbs] at hw
      exact .of_abs_le ((abs_of_nonneg (Int.natCast_nonneg _)).trans_le hw) hl
    simp only [List.all_cons, List.all_nil, Bool.and_true, Bool.and_eq_true, decide_eq_true_eq]
    exact ⟨hsize hn.x hk, hsize hn.y hk, hsize hn.z hk, hsize hv ho⟩

theorem through?_attains (h : safe → n.Near k ∧ a.Near m) (hk : k < 2 ^ 127)
    (hkm : 3 * (k * m) < 2 ^ 127) : Attains safe (through? n a) (through n a) :=
  .bind (Pos.dot?_attains h hkm)
    (reduced?_attains (fun hs => ⟨(h hs).1, Pos.abs_dot_le (h hs).1 (h hs).2⟩) hk hkm)

theorem flipped?_attains (hh : safe → h.Near k o) (hk : k < 2 ^ 127) (ho : o < 2 ^ 127) :
    Attains safe h.flipped? h.flipped := by
  unfold flipped?
  refine .bind (Pos.fit?_attains (fun hs => (hh hs).normal.neg) hk)
    (.bind (.fit? fun hs => ?_) (.done _ _))
  exact .of_abs_le ((abs_neg _).trans_le (hh hs).offset) ho

theorem closing?_attains (hh : safe → h.Near k o) (hk : k < 2 ^ 127) (ho : o < 2 ^ 127) :
    Attains safe (closing? h) (closing h) :=
  .bind (flipped?_attains hh hk ho) (.done _ _)

theorem holds?_attains (hh : safe → h.normal.Near k ∧ p.Near m) (hkm : 3 * (k * m) < 2 ^ 127) :
    Attains safe (h.holds? p) (h.holds p) :=
  .bind (Pos.dot?_attains hh hkm) (.done _ _)

/-- The points are gone through until there is one on either side. -/
theorem sides?_attains (hh : safe → h.Near k o ∧ ∀ p ∈ points, p.Near m) (ho : 0 ≤ o)
    (hfit : 3 * (k * m) + o < 2 ^ 127) (above below : Bool) :
    Attains safe (h.sides? above below points)
      (above || points.any fun p => h.normal.dot p - h.offset > 0,
        below || points.any fun p => h.normal.dot p - h.offset < 0) := by
  induction points generalizing above below with
  | nil =>
    rw [List.any_nil, List.any_nil, Bool.or_false, Bool.or_false]
    exact .done _ _
  | cons p points ih =>
    have hpoints (hs : safe) := List.forall_mem_cons.1 (hh hs).2
    rw [sides?, List.any_cons, List.any_cons, ← Bool.or_assoc, ← Bool.or_assoc]
    refine .bind (Pos.dot?_attains (fun hs => ⟨(hh hs).1.normal, (hpoints hs).1⟩) (by omega))
      (.bind (.fit? fun hs => ?_) ?_)
    · have hdot := Pos.abs_dot_le (hh hs).1.normal (hpoints hs).1
      have hsub := abs_sub (h.normal.dot p) h.offset
      have hoffset := (hh hs).1.offset
      exact .of_abs_le (b := 3 * (k * m) + o) (by omega) hfit
    · dsimp only
      -- the search ends here if it has seen both sides, and the rest cannot change what it tells
      split
      · rename_i hboth
        obtain ⟨habove, hbelow⟩ := Bool.and_eq_true_iff.1 hboth
        rw [habove, hbelow, Bool.true_or, Bool.true_or]
        exact .done _ _
      · exact ih (fun hs => ⟨(hh hs).1, (hpoints hs).2⟩) _ _

/-- **A half-space is tested safely**, if its normal is short enough for the points. -/
theorem support?_attains (hh : safe → h.Near k o ∧ ∀ p ∈ points, p.Near m) (hk : k < 2 ^ 127)
    (ho : 0 ≤ o ∧ o < 2 ^ 127) (hfit : 3 * (k * m) + o < 2 ^ 127) :
    Attains safe (support? points planes h) (support points planes h) := by
  unfold support? support supporting?
  refine .bind (sides?_attains hh ho.1 hfit false false) ?_
  simp only [Bool.false_or]
  split
  · exact .done _ _
  · split
    · exact .bind (flipped?_attains (fun hs => (hh hs).1) hk ho.2) (.done _ _)
    · exact .done _ _

end HalfSpace

/-! ## Hulls -/

namespace Hull

open HalfSpace

variable {points : List Pos} {origin dir normal : Pos} {s : HalfSpace}

/-- A direction to which a line is turned. -/
theorem helper_near (dir : Pos) : (helper dir).Near 1 := by
  unfold helper
  split
  · exact ⟨by decide, by decide, by decide⟩
  · exact ⟨by decide, by decide, by decide⟩

/-- The ends of a line are reached by points. -/
theorem abs_ends_le (horigin : origin ∈ points) (hpoints : ∀ p ∈ points, p.Near m) (hdir : dir.Near k) :
    |(points.map dir.dot).foldl max (dir.dot origin)| ≤ 3 * (k * m) ∧
      |(points.map dir.dot).foldl min (dir.dot origin)| ≤ 3 * (k * m) := by
  obtain ⟨⟨-, top, htop, hhi⟩, -, bottom, hbottom, hlo⟩ := ends_spec horigin dir
  rw [← hhi, ← hlo]
  exact ⟨Pos.abs_dot_le hdir (hpoints top htop), Pos.abs_dot_le hdir (hpoints bottom hbottom)⟩

theorem ofPoint?_attains (horigin : origin.Near (2 ^ 31)) :
    Attains safe (ofPoint? origin) (ofPoint origin) := by
  have haxis {n : Pos} (hn : n.Near 1) {v : ℤ} (hv : |v| ≤ 2 ^ 31) :
      Attains safe (reduced? n v) (reduced n v) ∧
        Attains safe (closing? (reduced n v)) (closing (reduced n v)) :=
    ⟨reduced?_attains (fun _ => ⟨hn, hv⟩) (by norm_num) (by norm_num),
      closing?_attains (fun _ => reduced_near hn hv) (by norm_num) (by norm_num)⟩
  obtain ⟨hx, hxs⟩ := haxis (n := ⟨1, 0, 0⟩) ⟨by decide, by decide, by decide⟩ horigin.x
  obtain ⟨hy, hys⟩ := haxis (n := ⟨0, 1, 0⟩) ⟨by decide, by decide, by decide⟩ horigin.y
  obtain ⟨hz, hzs⟩ := haxis (n := ⟨0, 0, 1⟩) ⟨by decide, by decide, by decide⟩ horigin.z
  exact hx.bind (hxs.bind (hy.bind (hys.bind (hz.bind (hzs.bind (.done _ _))))))

theorem ofLine?_attains (hpoints : ∀ p ∈ points, p.Near (2 ^ 31)) (horigin : origin ∈ points)
    (hdir : dir.Near (2 ^ 32)) :
    Attains safe (ofLine? points origin dir) (ofLine points origin dir) := by
  have hfirst := hdir.cross (helper_near dir)
  have hsecond := hdir.cross hfirst
  have ho := hpoints origin horigin
  obtain ⟨hhi, hlo⟩ := abs_ends_le horigin hpoints hdir
  unfold ofLine? ofLine
  -- one step after the other: two planes through the line, the numbers along it, and its two ends
  refine (Pos.cross?_attains (fun _ => ⟨hdir, helper_near dir⟩) (by norm_num)).bind ?_
  refine (Pos.cross?_attains (fun _ => ⟨hdir, hfirst⟩) (by norm_num)).bind ?_
  refine (through?_attains (fun _ => ⟨hfirst, ho⟩) (by norm_num) (by norm_num)).bind ?_
  refine (closing?_attains (fun _ => through_near hfirst ho) (by norm_num) (by norm_num)).bind ?_
  refine (through?_attains (fun _ => ⟨hsecond, ho⟩) (by norm_num) (by norm_num)).bind ?_
  refine (closing?_attains (fun _ => through_near hsecond ho) (by norm_num) (by norm_num)).bind ?_
  refine (Attains.mapM fun p hp =>
    Pos.dot?_attains (fun _ => ⟨hdir, hpoints p hp⟩) (by norm_num)).bind ?_
  refine (Pos.dot?_attains (fun _ => ⟨hdir, ho⟩) (by norm_num)).bind ?_
  refine (reduced?_attains (fun _ => ⟨hdir, hhi⟩) (by norm_num) (by norm_num)).bind ?_
  refine (support?_attains (fun _ => ⟨reduced_near hdir hhi, hpoints⟩) (by norm_num) (by norm_num)
    (by norm_num)).bind ?_
  refine (reduced?_attains (fun _ => ⟨hdir, hlo⟩) (by norm_num) (by norm_num)).bind ?_
  exact support?_attains (fun _ => ⟨reduced_near hdir hlo, hpoints⟩) (by norm_num) (by norm_num)
    (by norm_num)

theorem ofSpace?_attains (hpoints : ∀ p ∈ points, p.Near (2 ^ 31)) :
    Attains safe (ofSpace? points) (ofSpace points) := by
  refine Attains.foldlM (fun planes x hx => ?_) []
  obtain ⟨a, b, c⟩ := x
  have hmem := (mem_triples.1 hx).subset
  have ha := hpoints a (hmem (by simp))
  have hb := hpoints b (hmem (by simp))
  have hc := hpoints c (hmem (by simp))
  have hn := (hb.sub ha).cross (hc.sub ha)
  unfold addTriple?
  refine (Pos.sub?_attains (fun _ => ⟨hb, ha⟩) (by norm_num)).bind ?_
  refine (Pos.sub?_attains (fun _ => ⟨hc, ha⟩) (by norm_num)).bind ?_
  refine (Pos.cross?_attains (fun _ => ⟨hb.sub ha, hc.sub ha⟩) (by norm_num)).bind ?_
  refine .ite (fun _ => .done _ _) fun _ => ?_
  refine (through?_attains (fun _ => ⟨hn, ha⟩) (by norm_num) (by norm_num)).bind ?_
  exact support?_attains (fun _ => ⟨through_near hn ha, hpoints⟩) (by norm_num) (by norm_num)
    (by norm_num)

/-- In a plane the normal of a pair is a product of three differences. With a coordinate and the number
of their products this is all that 128 bits can hold. -/
theorem ofPlane?_attains (h : safe → (∀ p ∈ points, p.Near (2 ^ 30)) ∧ normal.Near (2 ^ 62))
    (horigin : origin ∈ points) :
    Attains safe (ofPlane? points origin normal) (ofPlane points origin normal) := by
  refine (through?_attains (fun hs => ⟨(h hs).2, (h hs).1 origin horigin⟩) (by norm_num)
    (by norm_num)).bind ?_
  refine (closing?_attains (fun hs => through_near (h hs).2 ((h hs).1 origin horigin)) (by norm_num)
    (by norm_num)).bind ?_
  refine Attains.foldlM (fun planes x hx => ?_) _
  obtain ⟨a, b⟩ := x
  have hmem := (mem_pairs.1 hx).subset
  have hends (hs : safe) : b.Near (2 ^ 30) ∧ a.Near (2 ^ 30) :=
    ⟨(h hs).1 b (hmem (by simp)), (h hs).1 a (hmem (by simp))⟩
  have hedge (hs : safe) := (hends hs).1.sub (hends hs).2
  have hn (hs : safe) := (hedge hs).cross (h hs).2
  unfold addPair?
  refine (Pos.sub?_attains hends (by norm_num)).bind ?_
  refine .ite (fun _ => .done _ _) fun _ => ?_
  refine (Pos.cross?_attains (fun hs => ⟨hedge hs, (h hs).2⟩) (by norm_num)).bind ?_
  refine (through?_attains (fun hs => ⟨hn hs, (hends hs).2⟩) (by norm_num) (by norm_num)).bind ?_
  exact support?_attains (fun hs => ⟨through_near (hn hs) (hends hs).2, (h hs).1⟩) (by norm_num)
    (by norm_num) (by norm_num)

/-! ## Lengths of normals -/

theorem ofPoint_near : ∀ s ∈ ofPoint origin, s.normal.Near (2 ^ 94) := by
  intro s hs
  have haxis (n : Pos) (hn : n.Near 1) (v : ℤ) (h : s ∈ closing (reduced n v)) : s.normal.Near (2 ^ 94) :=
    (near_of_closing (reduced_near hn le_rfl) h).normal.mono (by norm_num)
  unfold ofPoint at hs
  rcases List.mem_append.1 hs with hs | hs
  · rcases List.mem_append.1 hs with hs | hs
    · exact haxis ⟨1, 0, 0⟩ ⟨by decide, by decide, by decide⟩ _ hs
    · exact haxis ⟨0, 1, 0⟩ ⟨by decide, by decide, by decide⟩ _ hs
  · exact haxis ⟨0, 0, 1⟩ ⟨by decide, by decide, by decide⟩ _ hs

theorem ofLine_near (hpoints : ∀ p ∈ points, p.Near (2 ^ 31)) (horigin : origin ∈ points)
    (hdir : dir.Near (2 ^ 32)) : ∀ s ∈ ofLine points origin dir, s.normal.Near (2 ^ 94) := by
  intro s hs
  have hfirst := hdir.cross (helper_near dir)
  have hsecond := hdir.cross hfirst
  have ho := hpoints origin horigin
  obtain ⟨hhi, hlo⟩ := abs_ends_le horigin hpoints hdir
  unfold ofLine at hs
  simp only [mem_support, List.mem_append] at hs
  rcases hs with ((hs | hs) | hs) | hs
  · exact (near_of_closing (through_near hfirst ho) hs).normal.mono (by norm_num)
  · exact (near_of_closing (through_near hsecond ho) hs).normal.mono (by norm_num)
  · exact (near_of_supporting (reduced_near hdir hhi) hs).normal.mono (by norm_num)
  · exact (near_of_supporting (reduced_near hdir hlo) hs).normal.mono (by norm_num)

theorem ofPlane_near (hpoints : ∀ p ∈ points, p.Near (2 ^ 30)) (horigin : origin ∈ points)
    (hnormal : normal.Near (2 ^ 62)) : ∀ s ∈ ofPlane points origin normal, s.normal.Near (2 ^ 94) := by
  intro s hs
  rcases (mem_ofPlane ..).1 hs with hs | ⟨⟨a, b⟩, hx, -, hs⟩
  · exact (near_of_closing (through_near hnormal (hpoints origin horigin)) hs).normal.mono (by norm_num)
  · have hmem := (mem_pairs.1 hx).subset
    have ha := hpoints a (hmem (by simp))
    have hb := hpoints b (hmem (by simp))
    have hn := (hb.sub ha).cross hnormal
    exact (near_of_supporting (through_near hn ha) hs).normal.mono (by norm_num)

theorem ofSpace_near (hpoints : ∀ p ∈ points, p.Near (2 ^ 31)) :
    ∀ s ∈ ofSpace points, s.normal.Near (2 ^ 94) := by
  intro s hs
  obtain ⟨⟨a, b, c⟩, hx, -, hs⟩ := (mem_ofSpace ..).1 hs
  have hmem := (mem_triples.1 hx).subset
  have ha := hpoints a (hmem (by simp))
  have hb := hpoints b (hmem (by simp))
  have hc := hpoints c (hmem (by simp))
  have hn := (hb.sub ha).cross (hc.sub ha)
  exact (near_of_supporting (through_near hn ha) hs).normal.mono (by norm_num)

/-! ## Points of any rank -/

/-- The points lie in a plane, but not on a line. -/
def Flat (points : List Pos) : Prop :=
  (∃ n ≠ Pos.zero, ∀ p ∈ points, ∀ q ∈ points, n.dot (p - q) = 0) ∧
    ¬ ∃ d ≠ Pos.zero, ∀ p ∈ points, ∀ q ∈ points, d.cross (p - q) = .zero

/-- Points in a plane, of which three are on no line, are flat. -/
theorem flat_of_plane {far q : Pos} (horigin : origin ∈ points) (hfar : far ∈ points) (hq : q ∈ points)
    (hnormal : (far - origin).cross (q - origin) = normal) (hne : normal ≠ .zero)
    (hall : ∀ p ∈ points, normal.dot (p - origin) = 0) : Flat points := by
  refine ⟨⟨normal, hne, fun p hp p' hp' => ?_⟩, ?_⟩
  · have h := hall p hp
    have h' := hall p' hp'
    rw [Pos.dot_sub] at h h' ⊢
    omega
  · rintro ⟨d, hd, hline⟩
    exact hne (hnormal ▸ Pos.cross_eq_zero_of_parallel hd (hline far hfar origin horigin)
      (hline q hq origin horigin))

/-- The normal of a plane through points is a product of two sides of a triangle. -/
theorem normal_near {far q : Pos} (horigin : origin.Near m) (hfar : far.Near m) (hq : q.Near m) :
    ((far - origin).cross (q - origin)).Near (2 * m * (2 * m)) := by
  refine (hfar.sub horigin).cross_of_sub (hq.sub horigin) ?_
  have hside : far - origin - (q - origin) = far - q := by
    apply Pos.ext <;> simp only [Pos.sub_x, Pos.sub_y, Pos.sub_z, sub_sub_sub_cancel_right]
  rw [hside]
  exact hfar.sub hq

/-- The first normal that is found is the first one that is not zero. -/
theorem findSome?_normal (origin dir : Pos) (points : List Pos) :
    (points.findSome? fun p =>
      if dir.cross (p - origin) = .zero then none else some (dir.cross (p - origin))) =
      (points.map fun p => dir.cross (p - origin)).find? fun n => n ≠ .zero := by
  induction points with
  | nil => rfl
  | cons p points ih =>
    rw [List.findSome?_cons, List.map_cons, List.find?_cons, ih]
    by_cases h : dir.cross (p - origin) = .zero
    · rw [if_pos h, decide_eq_false (not_not.2 h)]
    · rw [if_neg h, decide_eq_true h]

theorem normal?_attains (horigin : origin.Near (2 ^ 31)) (hdir : dir.Near (2 ^ 32)) {p : Pos}
    (hp : p.Near (2 ^ 31)) : Attains safe (normal? origin dir p)
      (if dir.cross (p - origin) = .zero then none else some (dir.cross (p - origin))) := by
  refine (Pos.sub?_attains (fun _ => ⟨hp, horigin⟩) (by norm_num)).bind ?_
  exact (Pos.cross?_attains (fun _ => ⟨hdir, hp.sub horigin⟩) (by norm_num)).pure

theorem level?_attains (horigin : origin.Near (2 ^ 31)) (hnormal : normal.Near (2 ^ 65)) {p : Pos}
    (hp : p.Near (2 ^ 31)) :
    Attains safe (level? origin normal p) (normal.dot (p - origin) == 0) := by
  refine (Pos.sub?_attains (fun _ => ⟨hp, horigin⟩) (by norm_num)).bind ?_
  exact (Pos.dot?_attains (fun _ => ⟨hnormal, hp.sub horigin⟩) (by norm_num)).pure

/-- The points that a plane holds and three of which are on no line are flat, and if flat points are
small the normal of their plane is short. -/
theorem plane_near {far q : Pos} (horigin : origin ∈ points) (hfar : far ∈ points) (hq : q ∈ points)
    (hne : (far - origin).cross (q - origin) ≠ .zero)
    (hlevel : (points.all fun p => ((far - origin).cross (q - origin)).dot (p - origin) == 0) = true)
    (hflat : Flat points → ∀ p ∈ points, p.Near (2 ^ 30)) :
    (∀ p ∈ points, p.Near (2 ^ 30)) ∧ ((far - origin).cross (q - origin)).Near (2 ^ 62) := by
  have hsmall := hflat (flat_of_plane horigin hfar hq rfl hne fun p hp =>
    eq_of_beq (List.all_eq_true.1 hlevel p hp))
  exact ⟨hsmall, (normal_near (hsmall origin horigin) (hsmall far hfar) (hsmall q hq)).mono
    (by norm_num)⟩

/-- **The hull of points with coordinates of 32 bits is computed safely**, unless the points are flat and
have coordinates of more than 31 bits. -/
theorem ofPoints?_attains (hpoints : ∀ p ∈ points, p.Near (2 ^ 31))
    (hflat : safe → Flat points → ∀ p ∈ points, p.Near (2 ^ 30)) :
    Attains safe (ofPoints? points) (ofPoints points) := by
  cases points with
  | nil => exact .done _ _
  | cons origin rest =>
    have horigin : origin ∈ origin :: rest := List.mem_cons_self
    have ho := hpoints origin horigin
    rw [ofPoints_cons]
    unfold ofPoints?
    dsimp only
    cases hfind : (origin :: rest).find? fun p => p ≠ origin with
    | none => exact ofPoint?_attains ho
    | some far =>
      have hfar := List.mem_of_find?_eq_some hfind
      have hdir := (hpoints far hfar).sub ho
      have hnormals : Attains safe ((origin :: rest).findSomeM? (normal? origin (far - origin)))
          (((origin :: rest).map fun p => (far - origin).cross (p - origin)).find? fun n => n ≠ .zero) :=
        findSome?_normal .. ▸ Attains.findSomeM? fun p hp => normal?_attains ho hdir (hpoints p hp)
      dsimp only
      refine (Pos.sub?_attains (fun _ => ⟨hpoints far hfar, ho⟩) (by norm_num)).bind ?_
      refine hnormals.bind ?_
      cases hrank : ((origin :: rest).map fun p => (far - origin).cross (p - origin)).find?
          fun n => n ≠ .zero with
      | none => exact ofLine?_attains hpoints horigin hdir
      | some normal =>
        obtain ⟨hne, q, hq, rfl⟩ := exists_of_normal hrank
        -- a crude bound of the normal is enough here; in a plane `plane_near` gives a better one
        have hlong := (hdir.cross ((hpoints q hq).sub ho)).mono (l := 2 ^ 65) (by norm_num)
        refine (Attains.allM fun p hp => level?_attains ho hlong (hpoints p hp)).bind ?_
        refine .ite (fun hlevel => ?_) fun _ => ofSpace?_attains hpoints
        exact ofPlane?_attains (fun hs => plane_near horigin hfar hq hne hlevel (hflat hs)) horigin

/-- The normals of a hull are short enough for every position. -/
theorem ofPoints_near (hpoints : ∀ p ∈ points, p.Near (2 ^ 31))
    (hflat : Flat points → ∀ p ∈ points, p.Near (2 ^ 30)) :
    ∀ s ∈ ofPoints points, s.normal.Near (2 ^ 94) := by
  cases points with
  | nil => exact fun s hs => nomatch hs
  | cons origin rest =>
    have horigin : origin ∈ origin :: rest := List.mem_cons_self
    rw [ofPoints_cons]
    cases hfind : (origin :: rest).find? fun p => p ≠ origin with
    | none => exact ofPoint_near
    | some far =>
      have hfar := List.mem_of_find?_eq_some hfind
      have hdir := (hpoints far hfar).sub (hpoints origin horigin)
      dsimp only
      cases hrank : ((origin :: rest).map fun p => (far - origin).cross (p - origin)).find?
          fun n => n ≠ .zero with
      | none => exact ofLine_near hpoints horigin hdir
      | some normal =>
        obtain ⟨hne, q, hq, rfl⟩ := exists_of_normal hrank
        dsimp only
        split
        · rename_i hlevel
          obtain ⟨hsmall, hshort⟩ := plane_near horigin hfar hq hne hlevel hflat
          exact ofPlane_near hsmall horigin hshort
        · exact ofSpace_near hpoints

end Hull

end VoxelEdit
