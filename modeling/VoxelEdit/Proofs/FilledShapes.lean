import VoxelEdit.Proofs.RegionSound

/-!
# Outlines and hulls are never empty

* `Shape.Filled`: a polygon has a vertex, and a convex region has points but not too many.
  Everything that makes or changes a shape keeps this (`Region.Reached.filled`).
-/

namespace VoxelEdit

/-! ## Outlines and corners -/

/-- Leaving out repetitions leaves something. -/
theorem eraseReps_loop_ne_nil {α : Type} (r : α → α → Bool) (a : α) (as acc : List α) :
    List.eraseRepsBy.loop r a as acc ≠ [] := by
  induction as generalizing a acc with
  | nil => simp [List.eraseRepsBy.loop]
  | cons b as ih =>
    rw [List.eraseRepsBy.loop]
    split
    · exact ih _ _
    · exact ih _ _

theorem Polygon.boxOutline_ne_nil (b : Box) : boxOutline b ≠ [] := by
  unfold boxOutline
  dsimp only
  split
  · rename_i h
    rw [Bool.and_eq_true, decide_eq_true_eq] at h
    intro hnil
    have hlen := congrArg List.length hnil
    rw [List.length_dropLast, List.length_nil] at hlen
    omega
  · exact eraseReps_loop_ne_nil _ _ _ _

theorem length_eraseDups_le {α : Type} [BEq α] (as : List α) : as.eraseDups.length ≤ as.length := by
  induction h : as.length using Nat.strongRecOn generalizing as with
  | ind n ih =>
    cases as with
    | nil => simp
    | cons a as =>
      have hfilter := List.length_filter_le (fun b => !b == a) as
      rw [List.length_cons] at h
      have := ih _ (by omega) (as.filter fun b => !b == a) rfl
      rw [List.eraseDups_cons, List.length_cons]
      omega

/-! ## Shapes -/

namespace Shape

variable {R : Type} {s s' : Shape R}

/-- An outline has a vertex, and a hull has from one point up to the most that are allowed. -/
def Filled : Shape R → Prop
  | .polygon g => g.points ≠ []
  | .convex c => c.points ≠ [] ∧ c.points.length ≤ Convex.maxPoints
  | _ => True

variable [Radius R]

theorem ofPoint_filled (k : RegionKind) (p : Pos) : (ofPoint k p : Shape R).Filled := by
  cases k with
  | cuboid | expand | sphere => trivial
  | polygon => exact List.cons_ne_nil _ _
  | convex => exact ⟨List.cons_ne_nil _ _, show 1 ≤ 64 by decide⟩

theorem ofBox_filled (k : RegionKind) (b : Box) : (ofBox k b : Shape R).Filled := by
  cases k with
  | cuboid | expand | sphere => trivial
  | polygon => exact Polygon.boxOutline_ne_nil b
  | convex =>
    constructor
    · show b.corners.eraseDups ≠ []
      rw [Box.corners, List.flatMap_cons, List.flatMap_cons, List.map_cons, List.cons_append,
        List.cons_append, List.eraseDups_cons]
      exact List.cons_ne_nil _ _
    · exact (length_eraseDups_le b.corners).trans (show 8 ≤ 64 by decide)

theorem setMain_filled (s : Shape R) (p : Pos) : (s.setMain p).Filled := by
  cases s with
  | cuboid c => trivial
  | expand e => exact ofPoint_filled .expand p
  | sphere s => exact ofPoint_filled .sphere p
  | polygon g => exact ofPoint_filled .polygon p
  | convex c => exact ofPoint_filled .convex p

theorem setVice_filled {p : Pos} (h : s.setVice? p = some s') : s'.Filled := by
  cases s with
  | cuboid c | expand e =>
    rw [← Option.some.inj h]
    trivial
  | sphere s =>
    obtain ⟨t, -, rfl⟩ := Option.map_eq_some_iff.1 h
    trivial
  | polygon g =>
    obtain ⟨t, ht, rfl⟩ := Option.map_eq_some_iff.1 h
    rw [Polygon.setVice?_eq_some ht]
    exact List.append_ne_nil_of_right_ne_nil _ (List.cons_ne_nil _ _)
  | convex c =>
    obtain ⟨t, ht, rfl⟩ := Option.map_eq_some_iff.1 h
    obtain ⟨hroom, heq⟩ := Convex.setVice?_eq_some ht
    rw [heq]
    refine ⟨List.append_ne_nil_of_right_ne_nil _ (List.cons_ne_nil _ _), ?_⟩
    show (c.points ++ [p]).length ≤ _
    rw [List.length_append, List.length_singleton]
    omega

theorem Filled.resize (hs : s.Filled) {op : Resize} {ds : List Pos}
    (h : s.resize? op ds = some s') : s'.Filled := by
  cases s with
  | cuboid c | expand e =>
    rw [← Option.some.inj h]
    trivial
  | sphere s =>
    cases op with
    | expand | contract =>
      obtain ⟨t, -, rfl⟩ := Option.map_eq_some_iff.1 h
      trivial
  | polygon g =>
    obtain ⟨t, ht, rfl⟩ := Option.map_eq_some_iff.1 h
    obtain ⟨ends, -, ht⟩ := Option.bind_eq_some_iff.1 ht
    dsimp only at ht
    split at ht
    · rw [← Option.some.inj ht]
      exact hs
    · exact nomatch ht
  | convex c => exact nomatch h

theorem Filled.shift (hs : s.Filled) (d : Pos) : (s.shift d).Filled := by
  cases s with
  | cuboid c | expand e | sphere s => trivial
  | polygon g => exact fun h => hs (List.map_eq_nil_iff.1 h)
  | convex c =>
    refine ⟨fun h => hs.1 (List.map_eq_nil_iff.1 h), ?_⟩
    show (c.points.map _).length ≤ _
    rw [List.length_map]
    exact hs.2

/-! ### Reading -/

theorem columns_ne_nil {flat : List Int} (hne : flat ≠ []) (heven : flat.length % 2 = 0) :
    Region.columns flat ≠ [] := by
  match flat with
  | [] => exact absurd rfl hne
  | [x] => exact absurd heven (by simp)
  | x :: z :: rest => exact List.cons_ne_nil _ _

theorem triples_ne_nil {flat : List Int} (hne : flat ≠ []) (hthree : flat.length % 3 = 0) :
    Region.triples flat ≠ [] := by
  match flat with
  | [] => exact absurd rfl hne
  | [x] => exact absurd hthree (by simp)
  | [x, y] => exact absurd hthree (by simp)
  | x :: y :: z :: rest => exact List.cons_ne_nil _ _

theorem shapeOf_filled {k : RegionKind} {fields : Nbt.Fields}
    (h : Region.shapeOf k fields = .ok s) : s.Filled := by
  cases k with
  | cuboid | expand | sphere =>
    obtain ⟨c, -, h⟩ := bind_eq_ok h
    rw [← Except.ok.inj h]
    trivial
  | polygon =>
    obtain ⟨g, hg, h⟩ := bind_eq_ok h
    obtain ⟨flat, minY, maxY, rfl, hne, heven, -⟩ := Region.polygonOf_eq_ok hg
    rw [← Except.ok.inj h]
    exact columns_ne_nil hne heven
  | convex =>
    obtain ⟨c, hc, h⟩ := bind_eq_ok h
    obtain ⟨flat, rfl, hne, hthree, hcount, -⟩ := Region.convexOf_eq_ok hc
    rw [← Except.ok.inj h]
    exact ⟨triples_ne_nil hne hthree, hcount⟩

end Shape

/-- **Every region that is reached has a filled shape.** -/
theorem Region.Reached.filled {R : Type} [Radius R] {r : Region R} (hr : r.Reached) :
    r.shape.Filled := by
  induction hr with
  | ofPoint k dim p => exact Shape.ofPoint_filled k p
  | ofBox k dim hb => exact Shape.ofBox_filled k _
  | ofFields fields h =>
    obtain ⟨id, -, h⟩ := bind_eq_ok h
    split at h
    · exact nomatch h
    · obtain ⟨dim, -, h⟩ := bind_eq_ok h
      obtain ⟨s, hs, h⟩ := bind_eq_ok h
      rw [← Except.ok.inj h]
      exact Shape.shapeOf_filled hs
  | setMain p _ _ => exact Shape.setMain_filled _ p
  | setVice p _ h _ =>
    obtain ⟨s, hs, rfl⟩ := Option.map_eq_some_iff.1 h
    exact Shape.setVice_filled hs
  | resize op ds _ h ih =>
    obtain ⟨s, hs, rfl⟩ := Option.map_eq_some_iff.1 h
    exact ih.resize hs
  | shift d _ ih => exact ih.shift d

end VoxelEdit
