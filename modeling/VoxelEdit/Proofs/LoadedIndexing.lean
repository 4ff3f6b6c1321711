import VoxelEdit.Proofs.ClipboardPalette
import VoxelEdit.Proofs.SnapshotRoundTrip

/-!
# Where a loaded clipboard is indexed

The functions of a clipboard are total: a number without a cell gives nothing. Here they stand once
more in a strict form, which is `none` as soon as a number of a cell or of an entry is out of range.

* `Clipboard.Indexable`: nothing that is asked of a clipboard is out of range, and the strict forms
  give what the total ones give.
* `Coherent.indexable`: a coherent clipboard is indexable, and moves keep it so
  (`Coherent.indexable_moves`).
* `loaded_well_formed`: **a clipboard that is read has a cell for each position, is indexable, and stays
  so under all moves.** The reader multiplies the size before it looks at the number of cells, and so
  the program stops at a size that has more positions than 64 bits count
  (`oversized_clipboard_stops`).
-/

namespace VoxelEdit

namespace Clipboard

/-! ## Strict forms -/

section

variable (c : Clipboard)

/-- The content of a cell by its number, if there is such a cell. -/
def strictCell? (i : Int) : Option (Option Nat) := if 0 ≤ i then c.cells[i.toNat]? else none

/-- The entry of a cell's content, if the palette has it; an empty cell has none. -/
def strictEntry? : Option Nat → Option (Option Entry)
  | none => some none
  | some id => (c.palette[id]?).map some

/-- The entry at a local position; outside nothing is read. -/
def strictGet? (p : Pos) : Option (Option Entry) :=
  if c.localBox.contains p then (c.strictCell? (c.localBox.indexOf p)).bind c.strictEntry?
  else some none

/-- The entry at a position of the space that the buffer tiles. -/
def strictGetTiled? (p : Pos) : Option (Option Entry) :=
  c.strictGet? ⟨p.x % c.size.x, p.y % c.size.y, p.z % c.size.z⟩

/-- The filled cells with their entries. -/
def strictList? : Option (List (Pos × Entry)) :=
  c.filled.mapM fun (p, id) => (c.palette[id]?).map fun e => (p, e)

/-- The cells of a buffer of size `size` that takes each of them from where `source` tells. -/
def strictMoved? (size : Pos) (source : Pos → Pos) : Option (List (Option Nat)) :=
  (List.range c.cells.size).mapM fun (i : Nat) =>
    c.strictCell? (c.localBox.indexOf (source ((Box.ofSize .zero size).posAt i)))

/-- No number that is used to read, list, turn or mirror a clipboard is out of range. -/
structure Indexable : Prop where
  get : ∀ p, c.strictGet? p = some (c.get? p)
  tiled : ∀ p, c.strictGetTiled? p = some (c.getTiled? p)
  list : c.strictList? = some c.toList
  turn : ∀ axis, c.strictMoved? (c.size.turnSize axis) (fun p => p.turnBack c.size axis) =
    some (c.turn axis).cells.toList
  mirror : ∀ axis, c.strictMoved? c.size (fun p => p.mirror c.size axis) =
    some (c.mirror axis).cells.toList

end

/-! ## Within range -/

variable {c c' : Clipboard} {p : Pos}

/-- A cell that exists holds what the total form tells. -/
theorem strictCell?_of_lt {i : Int} (h0 : 0 ≤ i) (hi : i.toNat < c.cells.size) :
    c.strictCell? i = some (c.cell? i) := by
  rw [strictCell?, if_pos h0, cell?, Array.getElem?_eq_getElem hi, Option.join_some]

theorem Solid.strictCell? (hc : c.Solid) (hp : c.localBox.contains p = true) :
    c.strictCell? (c.localBox.indexOf p) = some (c.cell? (c.localBox.indexOf p)) := by
  have h0 := Box.indexOf_nonneg hp
  exact strictCell?_of_lt h0 ((hc.lt_size_iff h0).2 (Box.indexOf_lt_volume hp))

/-- What a cell holds is in the palette. -/
theorem Coherent.strictEntry? (hc : c.Coherent) (i : Int) :
    c.strictEntry? (c.cell? i) = some ((c.cell? i).bind fun id => c.palette[id]?) := by
  cases hid : c.cell? i with
  | none => rfl
  | some id =>
    have hlt := hc.below id (Array.mem_of_getElem? (Option.join_eq_some_iff.1 hid))
    rw [Clipboard.strictEntry?, Option.bind_some, Array.getElem?_eq_getElem hlt]
    rfl

theorem Coherent.strictGet? (hc : c.Coherent) (p : Pos) :
    c.strictGet? p = some (c.get? p) := by
  rw [Clipboard.strictGet?, get?_eq]
  by_cases hp : c.localBox.contains p = true
  · rw [if_pos hp, if_pos hp, hc.toSolid.strictCell? hp, Option.bind_some, hc.strictEntry?]
  · rw [if_neg hp, if_neg hp]

/-- A traversal that finds every item finds just what a filter finds. -/
theorem mapM_eq_filterMap {α β : Type} {f : α → Option β} {as : List α}
    (h : ∀ a ∈ as, (f a).isSome) : as.mapM f = some (as.filterMap f) := by
  induction as with
  | nil => rfl
  | cons a as ih =>
    obtain ⟨b, hb⟩ := Option.isSome_iff_exists.1 (h a List.mem_cons_self)
    rw [List.mapM_cons, hb, ih fun a ha => h a (List.mem_cons_of_mem _ ha),
      List.filterMap_cons_some hb]
    rfl

theorem Coherent.strictList? (hc : c.Coherent) : c.strictList? = some c.toList := by
  refine mapM_eq_filterMap ?_
  rintro ⟨p, id⟩ hmem
  obtain ⟨⟨cell, i⟩, hcell, hpair⟩ := List.mem_filterMap.1 hmem
  obtain ⟨id', rfl, heq⟩ := Option.map_eq_some_iff.1 hpair
  obtain ⟨-, rfl⟩ := Prod.mk.inj heq
  have hlt := hc.below id' (Array.mem_toList_iff.1 (List.fst_mem_of_mem_zipIdx hcell))
  rw [Option.isSome_map, Array.getElem?_eq_getElem hlt]
  rfl

/-- Cells are moved within range along any layout. -/
theorem Solid.strictMoved? {size' : Pos} {place source : Pos → Pos} (hc : c.Solid)
    (hl : Layout c.size size' place source) :
    c.strictMoved? size' source = some (c.moveCells size' source).toList := by
  have hcell : ∀ i ∈ List.range c.cells.size,
      c.strictCell? (c.localBox.indexOf (source ((Box.ofSize .zero size').posAt i))) =
        some (c.cell? (c.localBox.indexOf (source ((Box.ofSize .zero size').posAt i)))) :=
    fun i hi => hc.strictCell? (source_inside hc hl (List.mem_range.1 hi))
  rw [Clipboard.strictMoved?, mapM_eq_filterMap fun i hi => by rw [hcell i hi]; rfl,
    List.filterMap_congr hcell, List.filterMap_eq_map']
  unfold moveCells
  rw [Array.toList_map, Array.toList_range]

/-- **A coherent clipboard is indexable.** -/
theorem Coherent.indexable (hc : c.Coherent) : c.Indexable where
  get := hc.strictGet?
  tiled _ := hc.strictGet? _
  list := hc.strictList?
  turn axis := hc.toSolid.strictMoved? (turn_layout c.size axis)
  mirror axis := hc.toSolid.strictMoved? (mirror_layout c.size axis)

theorem Coherent.indexable_moves (hc : c.Coherent) {moves : List Move}
    (h : moves.foldlM (fun c m => m.act? c) c = some c') : c'.Indexable := by
  rw [moves_eq h]
  exact (hc.steps _).indexable

/-! ## Loaded clipboards -/

/-- **What reading a clipboard gives.** The program stops exactly if the bytes have the header, and what
follows it begins with a clipboard whose size is proper and has more positions than 64 bits
count. A clipboard that is read has a proper size, a cell for each position and an entry for each filled
cell, and nothing that is asked of it, and of what any moves make of it, is out of range. -/
theorem loaded_well_formed (bs : List UInt8) :
    (decode? bs = none ↔ ∃ tail s rest, bs = header ++ tail ∧ readStored tail = some (s, rest) ∧
      s.size.Proper ∧ (Number.maxWord64 : Int) < s.size.x * s.size.y * s.size.z) ∧
    ∀ c, decode? bs = some (.ok c) →
      c.size.Proper ∧ (c.cells.size : Int) = c.size.x * c.size.y * c.size.z ∧
        (∀ id, some id ∈ c.cells → id < c.palette.size) ∧
        ∀ (moves : List Move) (c' : Clipboard),
          moves.foldlM (fun c m => m.act? c) c = some c' → c'.Indexable := by
  refine ⟨decode?_eq_none_iff bs, fun c h => ?_⟩
  have hc := decode_coherent h
  exact ⟨hc.proper, hc.cells, hc.below, fun moves c' hmoves => hc.indexable_moves hmoves⟩

/-- A stored block beside an empty cell is read, mirrored and turned. -/
theorem loaded_well_formed_stone : ∃ c,
    decode? (header ++ storedBytes ⟨⟨2, 1, 1⟩, .zero, .zero,
      [(⟨"minecraft:stone", 0, []⟩, none, none)], [some 0, none]⟩) = some (.ok c) ∧
      c.Indexable ∧ ((c.mirror .x).turn .y).Indexable := by
  have hread : decode? (header ++ storedBytes ⟨⟨2, 1, 1⟩, .zero, .zero,
      [(⟨"minecraft:stone", 0, []⟩, none, none)], [some 0, none]⟩) = some (.ok
        (ofParts ⟨2, 1, 1⟩ #[.ofBlock ⟨"minecraft:stone", 0, []⟩] #[some 0, none] .zero .zero)) := by
    rfl
  obtain ⟨-, -, -, hmoves⟩ := (loaded_well_formed _).2 _ hread
  exact ⟨_, hread, hmoves [] _ rfl, hmoves [.mirror .x, .rotate ⟨0, 90, 0⟩] _ rfl⟩

/-- **The program stops at a size of `2 ^ 64` positions without a single cell**, and does not refuse it. -/
theorem oversized_clipboard_stops :
    let size : Pos := ⟨4194304, 2097152, 2097152⟩
    size.x * size.y * size.z = 2 ^ 64 ∧
      decode? (header ++ storedBytes ⟨size, .zero, .zero, [], []⟩) = none := by
  intro size
  have hsize : size.InWorld := by constructor <;> unfold Narrow <;> decide
  have hzero : Pos.zero.InWorld := by constructor <;> unfold Narrow <;> decide
  have hexact : Text.Decoder.Exact readStored (storedBytes ⟨size, .zero, .zero, [], []⟩)
      ⟨size, .zero, .zero, [], []⟩ :=
    exact_stored hsize hzero hzero (by decide) (by simp) (by decide) (by simp)
  have hread := hexact.reads []
  rw [List.append_nil] at hread
  exact ⟨by decide, (decode?_eq_none_iff _).2 ⟨_, _, _, rfl, hread, by decide, by decide⟩⟩

end Clipboard

end VoxelEdit
