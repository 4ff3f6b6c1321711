import VoxelEdit.Proofs.AxisEnds
import VoxelEdit.Region.Basic

/-!
# Cuboids and expanding boxes are resized alike

A cuboid does not say which of its corners is the upper one. Every change looks for the corner that
lies on the side it moves, along each axis, and takes the main one if they lie side by side.

* `Corners.moveAll_expand`: however often that is decided while a cuboid grows, the corners move as
  the ends of an expanding box do, each of them at one end. They keep their sides also if they begin
  side by side: the first change that is not zero parts them.
* `Corners.moveAll_contract`: the same for a cuboid that shrinks, as long as its corners do not pass
  each other.
* `Corners.moveAll_restores`: so shrinking by the negated changes leads every corner back.
* `Shape.resized_alike`: **a cuboid and an expanding box with the same box are resized to the same
  box**, which is given in closed form, **and come back exactly**.
-/

namespace VoxelEdit

open Ends

/-! ## Corners along an axis -/

namespace Corners

/-- Both corners along an axis after one change, the main one first. -/
def move (grow : Bool) (c : Int × Int) (d : Int) : Int × Int :=
  Cuboid.moveSide c.1 c.2 ((d > 0 : Bool) == grow) d

/-- Both corners along an axis after a list of changes. -/
def moveAll (grow : Bool) (c : Int × Int) (ds : List Int) : Int × Int := ds.foldl (move grow) c

/-- Corners at two ends, with the main one at the upper end or at the lower one. -/
def place (upper : Bool) (e : Int × Int) : Int × Int := if upper then e.swap else e

variable {e : Int × Int} {d : Int} {ds : List Int} {upper : Bool}

theorem inOrder_place (upper : Bool) (he : e.1 ≤ e.2) : inOrder (place upper e) = e := by
  cases upper with
  | false => exact inOrder_of_le he
  | true => simp [place, inOrder, he]

/-- Corners lie at their ends in one of the two ways. -/
theorem exists_place (c : Int × Int) : ∃ upper, c = place upper (inOrder c) := by
  by_cases h : c.1 ≤ c.2
  · exact ⟨false, by simp [place, inOrder, h]⟩
  · exact ⟨true, by simp [place, inOrder, (not_le.1 h).le]⟩

/-- Corners can lie at their ends in both ways only if they lie side by side. -/
theorem place_eq_iff {other : Bool} : place upper e = place other e ↔ upper = other ∨ e.1 = e.2 := by
  cases upper <;> cases other <;> simp [place, Prod.ext_iff]
  · omega
  · omega

/-- Corners that lie apart move as the ends do where they lie. -/
theorem move_place (grow : Bool) (he : e.1 < e.2) :
    move grow (place upper e) d = place upper (Ends.move grow e d) := by
  have hle : e.1 ≤ e.2 := he.le
  have hnot : ¬ e.2 ≤ e.1 := not_le.2 he
  unfold move Ends.move Expand.moveEnd Cuboid.moveSide
  cases upper with
  | false => by_cases hd : (d > 0 : Bool) == grow <;> simp [place, hd, hle, hnot]
  | true => by_cases hd : (d > 0 : Bool) == grow <;> simp [place, hd, hle, hnot]

/-- A corner that moves by nothing stays where it is. -/
theorem move_zero (grow : Bool) (c : Int × Int) : move grow c 0 = c := by
  unfold move Cuboid.moveSide
  simp

/-- Growing moves corners as their ends. Corners that lie side by side are parted by the change: the
main one comes to lie at the end that is moved. -/
theorem exists_move_expand (c : Int × Int) (d : Int) : ∃ upper,
    c = place upper (inOrder c) ∧ move true c d = place upper (Ends.move true (inOrder c) d) := by
  by_cases h : c.1 = c.2
  · obtain ⟨v, w⟩ := c
    obtain rfl : v = w := h
    unfold move Ends.move Expand.moveEnd Cuboid.moveSide
    by_cases hd : d > 0
    · exact ⟨true, by simp [place, inOrder, hd]⟩
    · exact ⟨false, by simp [place, inOrder, hd]⟩
  · obtain ⟨upper, hc⟩ := exists_place c
    have hlt : (inOrder c).1 < (inOrder c).2 := by
      simp only [inOrder]
      omega
    refine ⟨upper, hc, ?_⟩
    calc move true c d = move true (place upper (inOrder c)) d := by rw [← hc]
      _ = place upper (Ends.move true (inOrder c) d) := move_place true hlt

/-- **Corners that grow move as their ends do**, each of them at one end. -/
theorem moveAll_expand (c : Int × Int) (ds : List Int) : ∃ upper,
    c = place upper (inOrder c) ∧
      moveAll true c ds = place upper (Ends.moveAll true (inOrder c) ds) := by
  induction ds generalizing c with
  | nil =>
    obtain ⟨upper, hc⟩ := exists_place c
    exact ⟨upper, hc, hc⟩
  | cons d ds ih =>
    obtain ⟨upper, hc, hmove⟩ := exists_move_expand c d
    obtain ⟨next, hnext, hall⟩ := ih (move true c d)
    have hle : (inOrder c).1 ≤ (inOrder c).2 := min_le_max
    have hmoved : Ends.move true (inOrder c) d =
        ((inOrder c).1 + min d 0, (inOrder c).2 + max d 0) := Ends.move_expand _ _
    -- growing moves the ends apart, so that they are still in order
    have horder : inOrder (move true c d) = Ends.move true (inOrder c) d := by
      rw [hmove]
      refine inOrder_place upper ?_
      rw [hmoved]
      dsimp only
      omega
    rw [horder] at hnext hall
    refine ⟨next, ?_, hall⟩
    -- corners that lie apart now are at their ends in one way only; others have not been moved
    rw [hmove] at hnext
    have hkept : place upper (inOrder c) = place next (inOrder c) := by
      rw [place_eq_iff]
      rcases place_eq_iff.1 hnext with hsame | hside
      · exact .inl hsame
      · right
        rw [hmoved] at hside
        dsimp only at hside
        omega
    exact hc.trans hkept

/-- **Corners that shrink move as their ends do**, if these do not pass each other. -/
theorem moveAll_contract (h : e.1 + rises ds ≤ e.2 + falls ds) :
    moveAll false (place upper e) ds = place upper (Ends.moveAll false e ds) := by
  induction ds generalizing e with
  | nil => rfl
  | cons d ds ih =>
    rw [rises_cons, falls_cons] at h
    have hrise := rises_nonneg ds
    have hfall := falls_nonpos ds
    have hstep : move false (place upper e) d = place upper (Ends.move false e d) := by
      by_cases hd : d = 0
      · have hmoved : Ends.move false e 0 = e := by simp [Ends.move_contract]
        rw [hd, move_zero, hmoved]
      · exact move_place false (by omega)
    have hroom : (Ends.move false e d).1 + rises ds ≤ (Ends.move false e d).2 + falls ds := by
      rw [Ends.move_contract]
      dsimp only
      omega
    calc moveAll false (place upper e) (d :: ds)
        = moveAll false (place upper (Ends.move false e d)) ds := congrArg (moveAll false · ds) hstep
      _ = place upper (Ends.moveAll false (Ends.move false e d) ds) := ih hroom

/-- **Shrinking by the negated changes leads both corners back.** -/
theorem moveAll_restores (c : Int × Int) (ds : List Int) :
    moveAll false (moveAll true c ds) (ds.map fun d => -d) = c := by
  obtain ⟨upper, hc, hall⟩ := moveAll_expand c ds
  have hle : (inOrder c).1 ≤ (inOrder c).2 := min_le_max
  have hroom : (Ends.moveAll true (inOrder c) ds).1 + rises (ds.map fun d => -d) ≤
      (Ends.moveAll true (inOrder c) ds).2 + falls (ds.map fun d => -d) := by
    rw [Ends.moveAll_expand, rises_neg, falls_neg]
    simpa using hle
  rw [hall, moveAll_contract hroom, Ends.moveAll_restored, ← hc]

end Corners

/-! ## Boxes -/

/-- The sum of the positive changes along each axis. -/
def Pos.rises (ds : List Pos) : Pos :=
  ⟨Ends.rises (ds.map Pos.x), Ends.rises (ds.map Pos.y), Ends.rises (ds.map Pos.z)⟩

/-- The sum of the negative changes along each axis. -/
def Pos.falls (ds : List Pos) : Pos :=
  ⟨Ends.falls (ds.map Pos.x), Ends.falls (ds.map Pos.y), Ends.falls (ds.map Pos.z)⟩

namespace Box

/-- A box that has grown: down by the negative changes and up by the positive ones. -/
def grown (b : Box) (ds : List Pos) : Box := ⟨b.min + Pos.falls ds, b.max + Pos.rises ds⟩

/-- A box that has shrunk: up by the positive changes and down by the negative ones. -/
def shrunk (b : Box) (ds : List Pos) : Box := ⟨b.min + Pos.rises ds, b.max + Pos.falls ds⟩

theorem ends_grown (b : Box) (ds : List Pos) (axis : Axis) :
    (b.grown ds).ends axis = Ends.moveAll true (b.ends axis) (ds.map fun d => d.get axis) := by
  rw [Ends.moveAll_expand]
  cases axis <;> rfl

theorem ends_shrunk (b : Box) (ds : List Pos) (axis : Axis) :
    (b.shrunk ds).ends axis = Ends.moveAll false (b.ends axis) (ds.map fun d => d.get axis) := by
  rw [Ends.moveAll_contract]
  cases axis <;> rfl

end Box

/-! ## Resized shapes -/

theorem get_neg (ds : List Pos) (axis : Axis) :
    ((ds.map fun d => -d).map fun d => d.get axis) = (ds.map fun d => d.get axis).map fun v => -v := by
  rw [List.map_map, List.map_map]
  refine List.map_congr_left fun d _ => ?_
  cases axis <;> rfl

/-- The changes along an axis take up less than a box extends there. -/
theorem room_along {b : Box} {ds : List Pos} {axis : Axis}
    (h : (ds.map fun d => |d.get axis|).sum < b.dims.get axis) :
    rises (ds.map fun d => d.get axis) - falls (ds.map fun d => d.get axis) ≤
      (b.ends axis).2 - (b.ends axis).1 := by
  have hdims : b.dims.get axis = (b.ends axis).2 - (b.ends axis).1 + 1 := by cases axis <;> rfl
  have hsum := sum_abs (ds.map fun d => d.get axis)
  rw [List.map_map] at hsum
  have hsame : (ds.map fun d => |d.get axis|).sum =
      rises (ds.map fun d => d.get axis) - falls (ds.map fun d => d.get axis) := hsum
  omega

namespace Cuboid

variable {c : Cuboid} {ds : List Pos}

/-- The corners of a cuboid after changes, along an axis. -/
theorem resize_corners (c : Cuboid) (grow : Bool) (ds : List Pos) (axis : Axis) :
    Pos.along axis ((c.resize grow ds).main, (c.resize grow ds).vice) =
      Corners.moveAll grow (Pos.along axis (c.main, c.vice)) (ds.map fun d => d.get axis) := by
  have hstep (corners : Pos × Pos) (d : Pos) :
      Corners.move grow (Pos.along axis corners) (d.get axis) =
        Pos.along axis (change grow corners d) := by
    cases axis <;> rfl
  have hresize : Pos.along axis ((c.resize grow ds).main, (c.resize grow ds).vice) =
      Pos.along axis (ds.foldl (change grow) (c.main, c.vice)) := rfl
  rw [hresize, Corners.moveAll, List.foldl_map]
  exact (List.foldl_hom (Pos.along axis) hstep).symm

theorem box_grown (hc : c.box = .span c.main c.vice) (ds : List Pos) :
    (c.resize true ds).box = c.box.grown ds := by
  have hordered : c.box.Ordered := hc ▸ Box.span_ordered _ _
  refine Box.ext_ends fun axis => ?_
  rw [resize_ends hc, Ends.moveInOrder_expand (hordered.ends_le axis), Box.ends_grown]

theorem box_shrunk (hc : c.box = .span c.main c.vice)
    (hroom : ∀ axis, (ds.map fun d => |d.get axis|).sum < c.box.dims.get axis) :
    (c.resize false ds).box = c.box.shrunk ds := by
  refine Box.ext_ends fun axis => ?_
  rw [resize_ends hc, moveInOrder_contract (room_along (hroom axis)), Box.ends_shrunk,
    Ends.moveAll_contract]

/-- **A cuboid that has grown shrinks back to what it was, with both corners.** -/
theorem resize_restores (hc : c.box = .span c.main c.vice) (ds : List Pos) :
    (c.resize true ds).resize false (ds.map fun d => -d) = c := by
  set back := (c.resize true ds).resize false (ds.map fun d => -d) with hback
  have halong (axis : Axis) :
      Pos.along axis (back.main, back.vice) = Pos.along axis (c.main, c.vice) := by
    rw [hback, resize_corners, resize_corners, get_neg, Corners.moveAll_restores]
  have hmain : back.main = c.main := Pos.ext (congrArg Prod.fst (halong .x))
    (congrArg Prod.fst (halong .y)) (congrArg Prod.fst (halong .z))
  have hvice : back.vice = c.vice := Pos.ext (congrArg Prod.snd (halong .x))
    (congrArg Prod.snd (halong .y)) (congrArg Prod.snd (halong .z))
  calc back = ofCorners back.main back.vice := rfl
    _ = ofCorners c.main c.vice := by rw [hmain, hvice]
    _ = c := by rw [ofCorners, ← hc]

end Cuboid

namespace Expand

variable {e : Expand} {ds : List Pos}

theorem box_grown (he : e.box.Ordered) (ds : List Pos) :
    (e.resize true ds).box = e.box.grown ds := by
  refine Box.ext_ends fun axis => ?_
  have hends := Box.ends_grown e.box ds axis
  have hle := he.ends_le axis
  have hfall := falls_nonpos (ds.map fun d => d.get axis)
  have hrise := rises_nonneg (ds.map fun d => d.get axis)
  rw [resize_ends, hends, inOrder_of_le]
  rw [Ends.moveAll_expand]
  dsimp only
  omega

theorem box_shrunk (hroom : ∀ axis, (ds.map fun d => |d.get axis|).sum < e.box.dims.get axis) :
    (e.resize false ds).box = e.box.shrunk ds := by
  refine Box.ext_ends fun axis => ?_
  have hends := Box.ends_shrunk e.box ds axis
  have hle := room_along (hroom axis)
  rw [resize_ends, hends, inOrder_of_le]
  rw [Ends.moveAll_contract]
  dsimp only
  omega

/-- **An expanding box that has grown shrinks back to what it was.** -/
theorem resize_restores (he : e.box.Ordered) (ds : List Pos) :
    (e.resize true ds).resize false (ds.map fun d => -d) = e := by
  have hbox : ((e.resize true ds).resize false (ds.map fun d => -d)).box = e.box := by
    refine Box.ext_ends fun axis => ?_
    rw [resize_ends, box_grown he, Box.ends_grown, get_neg, Ends.moveAll_restored,
      inOrder_of_le (he.ends_le axis)]
  exact congrArg Expand.mk hbox

end Expand

namespace Shape

variable {R : Type} [Radius R]

/-- **Cuboids and expanding boxes are resized alike.** A cuboid and an expanding box with the same
box both grow by any changes, down by the negative and up by the positive ones along each axis.
Shrinking by the negated changes then brings back the box, and both corners of the cuboid. If the
changes take up less than the box extends along each axis, both shrink by them, up by the positive
and down by the negative ones. -/
theorem resized_alike {c : Cuboid} {e : Expand} (hc : c.box = .span c.main c.vice)
    (he : e.box = c.box) (ds : List Pos) :
    (∃ c' e', (cuboid c : Shape R).resize? .expand ds = some (.cuboid c') ∧
      (expand e : Shape R).resize? .expand ds = some (.expand e') ∧
      c'.box = c.box.grown ds ∧ e'.box = c.box.grown ds ∧
      (cuboid c' : Shape R).resize? .contract (ds.map fun d => -d) = some (.cuboid c) ∧
      (expand e' : Shape R).resize? .contract (ds.map fun d => -d) = some (.expand e)) ∧
    ((∀ axis, (ds.map fun d => |d.get axis|).sum < c.box.dims.get axis) →
      ∃ c' e', (cuboid c : Shape R).resize? .contract ds = some (.cuboid c') ∧
        (expand e : Shape R).resize? .contract ds = some (.expand e') ∧
        c'.box = c.box.shrunk ds ∧ e'.box = c.box.shrunk ds) := by
  have hordered : e.box.Ordered := by
    rw [he, hc]
    exact Box.span_ordered _ _
  constructor
  · refine ⟨c.resize true ds, e.resize true ds, rfl, rfl, Cuboid.box_grown hc ds, ?_, ?_, ?_⟩
    · rw [Expand.box_grown hordered, he]
    · exact congrArg (fun back => some (cuboid back)) (Cuboid.resize_restores hc ds)
    · exact congrArg (fun back => some (expand back)) (Expand.resize_restores hordered ds)
  · intro hroom
    refine ⟨c.resize false ds, e.resize false ds, rfl, rfl, Cuboid.box_shrunk hc hroom, ?_⟩
    rw [← he] at hroom
    rw [Expand.box_shrunk hroom, he]

/-- A cuboid of one layer, with its main corner at the upper end of one axis only: the layer grows
first down and then up, and comes back. It has room to shrink along the other axes. -/
theorem resized_alike_layer :
    let c : Cuboid := .ofCorners ⟨9, 0, 0⟩ ⟨0, 0, 9⟩
    let e : Expand := ⟨⟨⟨0, 0, 0⟩, ⟨9, 0, 9⟩⟩⟩
    let changes : List Pos := [⟨0, -2, 0⟩, ⟨1, 3, 0⟩, ⟨-4, 0, 5⟩]
    let room : List Pos := [⟨3, 0, -4⟩, ⟨-6, 0, 0⟩]
    c.box = .span c.main c.vice ∧ e.box = c.box ∧
      (∃ c' : Cuboid, (cuboid c : Shape Float).resize? .expand changes = some (.cuboid c') ∧
        c'.box = ⟨⟨-4, -2, 0⟩, ⟨10, 3, 14⟩⟩ ∧
        (cuboid c' : Shape Float).resize? .contract (changes.map fun d => -d) = some (.cuboid c)) ∧
      (∀ axis, (room.map fun d => |d.get axis|).sum < c.box.dims.get axis) ∧
      ∃ e' : Expand, (expand e : Shape Float).resize? .contract room = some (.expand e') ∧
        e'.box = ⟨⟨3, 0, 0⟩, ⟨3, 0, 5⟩⟩ := by
  intro c e changes room
  have hroom : ∀ axis, (room.map fun d => |d.get axis|).sum < c.box.dims.get axis := by
    intro axis
    cases axis <;> decide
  obtain ⟨c', _, hc', -, hbox, -, hback, -⟩ :=
    (resized_alike (R := Float) (c := c) (e := e) rfl rfl changes).1
  obtain ⟨_, e', -, he', -, hbox'⟩ :=
    (resized_alike (R := Float) (c := c) (e := e) rfl rfl room).2 hroom
  exact ⟨rfl, rfl, ⟨c', hc', hbox, hback⟩, hroom, e', he', hbox'⟩

end Shape

end VoxelEdit
