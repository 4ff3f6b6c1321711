import Mathlib.Data.List.Nodup
import Mathlib.Data.List.Perm.Subperm
import Mathlib.Data.Set.Function
import VoxelEdit.Clipboard.Capture
import VoxelEdit.Clipboard.Snapshot
import VoxelEdit.Clipboard.Turn
import VoxelEdit.Proofs.QuarterTurn

/-!
# Cells of a clipboard

A clipboard is solid if it has one cell for each position of a box that is not empty. All
clipboards that the library makes are (`Made.solid`).

* `mem_toList_iff`: the list of a solid clipboard holds exactly what `get?` finds.
* `Layout`: a way to lay the cells of one buffer out in another. Moving cells along a layout
  permutes them (`moveCells_perm`), and what stood at a position stands where the layout places
  it (`get?_relocated`). Quarter turns and mirrors are layouts.
-/

namespace VoxelEdit

namespace Pos

/-- At least one along each axis. -/
def Proper (size : Pos) : Prop := 1 ≤ size.x ∧ 1 ≤ size.y ∧ 1 ≤ size.z

instance : DecidablePred Proper :=
  fun size => inferInstanceAs (Decidable (1 ≤ size.x ∧ 1 ≤ size.y ∧ 1 ≤ size.z))

variable {p size : Pos}

theorem proper_sup_one (size : Pos) : (size.sup (.splat 1)).Proper := by
  simp only [Proper, sup, splat_x, splat_y, splat_z]
  omega

theorem Proper.turnSize (h : size.Proper) (axis : Axis) : (size.turnSize axis).Proper := by
  obtain ⟨hx, hy, hz⟩ := h
  cases axis
  · exact ⟨hx, hz, hy⟩
  · exact ⟨hz, hy, hx⟩
  · exact ⟨hy, hx, hz⟩

/-- The box of a buffer starts at the origin and ends one short of its size. -/
theorem Proper.ofSize_zero (h : size.Proper) : Box.ofSize .zero size = ⟨.zero, size - .splat 1⟩ := by
  obtain ⟨hx, hy, hz⟩ := h
  unfold Box.ofSize Box.span
  congr 1
  · ext <;> simp only [inf, zero_x, zero_y, zero_z, add_x, add_y, add_z, sub_x, sub_y, sub_z, splat_x,
      splat_y, splat_z] <;> omega
  · ext <;> simp only [sup, zero_x, zero_y, zero_z, add_x, add_y, add_z, sub_x, sub_y, sub_z, splat_x,
      splat_y, splat_z] <;> omega

theorem Proper.contains_iff (h : size.Proper) :
    (Box.ofSize .zero size).contains p = true ↔ p.Inside size := by
  rw [Box.contains_iff, h.ofSize_zero]
  simp only [Inside, zero_x, zero_y, zero_z, sub_x, sub_y, sub_z, splat_x, splat_y, splat_z]
  omega

theorem Proper.volume_eq (h : size.Proper) : (Box.ofSize .zero size).volume = size.cellCount := by
  rw [h.ofSize_zero]
  simp [Box.volume, cellCount]

theorem Proper.cellCount_pos (h : size.Proper) : 0 < size.cellCount := by
  obtain ⟨hx, hy, hz⟩ := h
  have hxy : 0 < size.x * size.y := mul_pos (by omega) (by omega)
  exact mul_pos hxy (by omega)

end Pos

namespace Clipboard

/-- One cell for each position of a box that is not empty. -/
structure Solid (c : Clipboard) : Prop where
  proper : c.size.Proper
  cells : (c.cells.size : Int) = c.size.cellCount

variable {c : Clipboard} {p : Pos} {e : Entry}

theorem get?_eq (c : Clipboard) (p : Pos) :
    c.get? p = if c.localBox.contains p then
      (c.cell? (c.localBox.indexOf p)).bind fun id => c.palette[id]? else none := rfl

/-- The numbers of the cells are those below the volume. -/
theorem Solid.lt_size_iff (hc : c.Solid) {n : Int} (h0 : 0 ≤ n) :
    n.toNat < c.cells.size ↔ n < c.localBox.volume := by
  have h1 := hc.cells
  have h2 : c.localBox.volume = c.size.cellCount := hc.proper.volume_eq
  omega

theorem mem_filled_iff (hc : c.Solid) {id : Nat} :
    (p, id) ∈ c.filled ↔
      c.localBox.contains p = true ∧ c.cell? (c.localBox.indexOf p) = some id := by
  have hb : c.localBox.Ordered := Box.span_ordered _ _
  unfold filled cell?
  rw [List.mem_filterMap]
  constructor
  · rintro ⟨⟨cell, i⟩, hmem, heq⟩
    rw [List.mem_zipIdx_iff_getElem?] at hmem
    simp only [Array.getElem?_toList] at hmem
    obtain ⟨id', hcell, hpair⟩ := Option.map_eq_some_iff.1 heq
    obtain ⟨rfl, rfl⟩ := Prod.mk.inj hpair
    have hi : i < c.cells.size := by
      by_contra hge
      rw [Array.getElem?_eq_none (by omega)] at hmem
      exact absurd hmem (by simp)
    have hi' : (i : Int) < c.localBox.volume :=
      (hc.lt_size_iff (Int.natCast_nonneg i)).1 (by simpa using hi)
    refine ⟨Box.contains_posAt hb (Int.natCast_nonneg i) hi', ?_⟩
    rw [Box.indexOf_posAt hb, Int.toNat_natCast, hmem, hcell]
    rfl
  · rintro ⟨hp, hcell⟩
    have h0 := Box.indexOf_nonneg hp
    refine ⟨(some id, (c.localBox.indexOf p).toNat), ?_, ?_⟩
    · rw [List.mem_zipIdx_iff_getElem?]
      simp only [Array.getElem?_toList]
      exact Option.join_eq_some_iff.1 hcell
    · simp only [Int.toNat_of_nonneg h0, Box.posAt_indexOf hp]
      rfl

/-- **The list of a clipboard holds what its positions hold.** -/
theorem mem_toList_iff (hc : c.Solid) : (p, e) ∈ c.toList ↔ c.get? p = some e := by
  unfold toList
  rw [List.mem_filterMap, get?_eq]
  constructor
  · rintro ⟨⟨q, id⟩, hmem, heq⟩
    obtain ⟨e', he, hpair⟩ := Option.map_eq_some_iff.1 heq
    obtain ⟨rfl, rfl⟩ := Prod.mk.inj hpair
    obtain ⟨hp, hcell⟩ := (mem_filled_iff hc).1 hmem
    rw [if_pos hp, hcell]
    exact he
  · intro h
    by_cases hp : c.localBox.contains p = true
    · rw [if_pos hp] at h
      obtain ⟨id, hcell, he⟩ := Option.bind_eq_some_iff.1 h
      exact ⟨(p, id), (mem_filled_iff hc).2 ⟨hp, hcell⟩, by simp [he]⟩
    · rw [if_neg hp] at h
      exact absurd h (by simp)

/-! ## Layouts -/

/-- The cells of a buffer of one size laid out in a buffer of another: `place` tells where a cell
goes, and `source` where one comes from. -/
structure Layout (size size' : Pos) (place source : Pos → Pos) : Prop where
  proper : size.Proper → size'.Proper
  count : size'.cellCount = size.cellCount
  source_place : ∀ p, source (place p) = p
  place_source : ∀ p, place (source p) = p
  inside : ∀ p, (place p).Inside size' ↔ p.Inside size

theorem turn_layout (size : Pos) (axis : Axis) :
    Layout size (size.turnSize axis) (fun p => p.turn size axis) fun p => p.turnBack size axis :=
  ⟨fun h => h.turnSize axis, size.cellCount_turnSize axis, fun p => p.turnBack_turn size axis,
    fun p => p.turn_turnBack size axis, fun p => p.inside_turn size axis⟩

theorem mirror_layout (size : Pos) (axis : Axis) :
    Layout size size (fun p => p.mirror size axis) fun p => p.mirror size axis :=
  ⟨fun h => h, rfl, fun p => p.mirror_mirror size axis, fun p => p.mirror_mirror size axis,
    fun p => p.inside_mirror size axis⟩

variable {size' : Pos} {place source : Pos → Pos}

/-- The positions inside a clipboard. -/
def inside (c : Clipboard) : Set Pos := {p | c.localBox.contains p = true}

/-- A layout is a bijection of what lies inside. -/
theorem Layout.bijOn {c' : Clipboard} (hc : c.size.Proper) (hl : Layout c.size c'.size place source) :
    Set.BijOn place c.inside c'.inside := by
  have hc' := hl.proper hc
  refine ⟨?_, ?_, ?_⟩
  · intro p hp
    exact hc'.contains_iff.2 ((hl.inside p).2 (hc.contains_iff.1 hp))
  · intro p _ q _ h
    rw [← hl.source_place p, h, hl.source_place]
  · intro q hq
    refine ⟨source q, hc.contains_iff.2 ((hl.inside _).1 ?_), hl.place_source q⟩
    rw [hl.place_source]
    exact hc'.contains_iff.1 hq

/-- What a moved cell holds: the content of the cell that it comes from. -/
theorem cell?_moveCells (hc : c.Solid) (hl : Layout c.size size' place source) (p : Pos)
    (hp : p.Inside c.size) :
    ((c.moveCells size' source)[((Box.ofSize .zero size').indexOf (place p)).toNat]?).join =
      c.cell? (c.localBox.indexOf p) := by
  have hin : (Box.ofSize .zero size').contains (place p) = true :=
    (hl.proper hc.proper).contains_iff.2 ((hl.inside p).2 hp)
  have h0 := Box.indexOf_nonneg hin
  have hlt : ((Box.ofSize .zero size').indexOf (place p)).toNat < c.cells.size := by
    have h1 := Box.indexOf_lt_volume hin
    rw [(hl.proper hc.proper).volume_eq, hl.count] at h1
    have h2 := hc.cells
    omega
  unfold moveCells
  simp only [Array.getElem?_map, Array.getElem?_range, hlt, if_true, Option.map_some,
    Option.join_some, Int.toNat_of_nonneg h0, Box.posAt_indexOf hin, hl.source_place]

/-- The number of the cell that a moved cell takes its content from. -/
def sourceIndex (c : Clipboard) (size' : Pos) (source : Pos → Pos) (i : Nat) : Nat :=
  (c.localBox.indexOf (source ((Box.ofSize .zero size').posAt i))).toNat

theorem volume_target (hc : c.Solid) (hl : Layout c.size size' place source) :
    (Box.ofSize .zero size').volume = c.cells.size := by
  rw [(hl.proper hc.proper).volume_eq, hl.count, hc.cells]

/-- What a moved cell takes its content from lies inside. -/
theorem source_inside (hc : c.Solid) (hl : Layout c.size size' place source) {i : Nat}
    (hi : i < c.cells.size) :
    c.localBox.contains (source ((Box.ofSize .zero size').posAt i)) = true := by
  have hb : (Box.ofSize .zero size').Ordered := Box.span_ordered _ _
  have h1 := Box.contains_posAt hb (Int.natCast_nonneg i) (by rw [volume_target hc hl]; omega)
  have h2 := (hl.proper hc.proper).contains_iff.1 h1
  refine hc.proper.contains_iff.2 ((hl.inside _).1 ?_)
  rw [hl.place_source]
  exact h2

theorem sourceIndex_lt (hc : c.Solid) (hl : Layout c.size size' place source) {i : Nat}
    (hi : i < c.cells.size) : c.sourceIndex size' source i < c.cells.size :=
  (hc.lt_size_iff (Box.indexOf_nonneg (source_inside hc hl hi))).2
    (Box.indexOf_lt_volume (source_inside hc hl hi))

/-- No two moved cells take their content from the same one. -/
theorem sourceIndex_inj (hc : c.Solid) (hl : Layout c.size size' place source) {i j : Nat}
    (hi : i < c.cells.size) (hj : j < c.cells.size)
    (h : c.sourceIndex size' source i = c.sourceIndex size' source j) : i = j := by
  have hb : (Box.ofSize .zero size').Ordered := Box.span_ordered _ _
  have hin := source_inside hc hl hi
  have hjn := source_inside hc hl hj
  have h1 := Box.indexOf_nonneg hin
  have h2 := Box.indexOf_nonneg hjn
  have hindex : c.localBox.indexOf (source ((Box.ofSize .zero size').posAt i)) =
      c.localBox.indexOf (source ((Box.ofSize .zero size').posAt j)) := by
    unfold sourceIndex at h
    omega
  -- back from the numbers to the positions, to where they are placed, and to their numbers there
  have hpos := congrArg c.localBox.posAt hindex
  rw [Box.posAt_indexOf hin, Box.posAt_indexOf hjn] at hpos
  have hback := congrArg ((Box.ofSize .zero size').indexOf ∘ place) hpos
  simp only [Function.comp_apply, hl.place_source, Box.indexOf_posAt hb] at hback
  exact_mod_cast hback

theorem sourceIndex_perm (hc : c.Solid) (hl : Layout c.size size' place source) :
    ((List.range c.cells.size).map (c.sourceIndex size' source)).Perm
      (List.range c.cells.size) := by
  have hnodup : ((List.range c.cells.size).map (c.sourceIndex size' source)).Nodup := by
    refine List.Nodup.map_on ?_ List.nodup_range
    intro i hi j hj h
    exact sourceIndex_inj hc hl (List.mem_range.1 hi) (List.mem_range.1 hj) h
  have hsub : (List.range c.cells.size).map (c.sourceIndex size' source) ⊆
      List.range c.cells.size := by
    intro k hk
    obtain ⟨i, hi, rfl⟩ := List.mem_map.1 hk
    exact List.mem_range.2 (sourceIndex_lt hc hl (List.mem_range.1 hi))
  refine (List.subperm_of_subset hnodup hsub).perm_of_length_le ?_
  simp

/-- **Moving cells along a layout permutes them.** -/
theorem moveCells_perm (hc : c.Solid) (hl : Layout c.size size' place source) :
    (c.moveCells size' source).toList.Perm c.cells.toList := by
  -- both lists read the cells, one in the order of their numbers, one in that of the sources
  set read : Nat → Option Nat := fun i => (c.cells[i]?).join with hread
  have hold : c.cells.toList = (List.range c.cells.size).map read := by
    apply List.ext_getElem
    · simp
    · intro i h1 h2
      have hi : i < c.cells.size := by simpa using h1
      simp [hread, hi]
  have hnew : (c.moveCells size' source).toList =
      ((List.range c.cells.size).map (c.sourceIndex size' source)).map read := by
    rw [List.map_map]
    unfold moveCells
    simp only [Array.toList_map, Array.toList_range]
    rfl
  rw [hnew, hold]
  exact (sourceIndex_perm hc hl).map read

/-- The clipboard with its cells laid out anew, the player's position moved along and the blocks
of the palette changed. -/
def relocated (c : Clipboard) (size' : Pos) (place source : Pos → Pos) (f : Block → Block) :
    Clipboard :=
  let palette := c.palette.map (mapBlocks f)
  { c with
    size := size'
    cells := c.moveCells size' source
    relative := place c.relative
    palette
    index := .ofPalette palette }

theorem turn_eq (c : Clipboard) (axis : Axis) :
    c.turn axis = c.relocated (c.size.turnSize axis) (fun p => p.turn c.size axis)
      (fun p => p.turnBack c.size axis) fun b => b.turn axis := rfl

theorem mirror_eq (c : Clipboard) (axis : Axis) :
    c.mirror axis = c.relocated c.size (fun p => p.mirror c.size axis)
      (fun p => p.mirror c.size axis) fun b => b.mirror axis := rfl

variable {f : Block → Block}

theorem Solid.relocated (hc : c.Solid) (hl : Layout c.size size' place source) :
    (c.relocated size' place source f).Solid := by
  refine ⟨hl.proper hc.proper, ?_⟩
  have h1 : (c.relocated size' place source f).cells.size = c.cells.size := by
    simp [Clipboard.relocated, moveCells]
  rw [h1, hc.cells]
  exact hl.count.symm

theorem count_relocated (hc : c.Solid) (hl : Layout c.size size' place source) :
    (c.relocated size' place source f).count = c.count := by
  have h := moveCells_perm hc hl
  unfold count
  rw [← Array.countP_toList, ← Array.countP_toList]
  exact h.countP_eq _

/-- **What stood at a position stands where the layout places it**, with its blocks changed. -/
theorem get?_relocated (hc : c.Solid) (hl : Layout c.size size' place source) (p : Pos) :
    (c.relocated size' place source f).get? (place p) = (c.get? p).map (mapBlocks f) := by
  have hiff : (c.relocated size' place source f).localBox.contains (place p) = true ↔
      c.localBox.contains p = true := by
    rw [show (c.relocated size' place source f).localBox = Box.ofSize .zero size' from rfl,
      (hl.proper hc.proper).contains_iff, hl.inside]
    exact hc.proper.contains_iff.symm
  rw [get?_eq, get?_eq]
  by_cases hp : c.localBox.contains p = true
  · rw [if_pos (hiff.2 hp), if_pos hp]
    have hcell := cell?_moveCells hc hl p (hc.proper.contains_iff.1 hp)
    rw [show (c.relocated size' place source f).cell?
        ((c.relocated size' place source f).localBox.indexOf (place p)) =
        c.cell? (c.localBox.indexOf p) from hcell]
    cases c.cell? (c.localBox.indexOf p) with
    | none => rfl
    | some id => simp [relocated]
  · rw [if_neg (fun h => hp (hiff.1 h)), if_neg hp]
    rfl

end Clipboard

end VoxelEdit
