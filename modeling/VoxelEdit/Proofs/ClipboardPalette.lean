import Mathlib.Data.List.Induction
import VoxelEdit.Proofs.ClipboardMoves

/-!
# The palette of a clipboard

Cells are numbers into a palette, and an index leads from blocks to such numbers. Both stay right
whatever is done with a clipboard (`Made.coherent`): each cell has its entry, and the index is
the one that would be made anew from the palette.

* `PaletteIndex.Indexes`: an index that leads from the blocks of each entry without a tag tree to
  an entry with just these blocks. An index that is made anew is one (`ofPalette_indexes`).
* `get?_store`: **what is stored at a position is found there, and all else as before.**
* `toList_pairwise`, `Coherent.length_toList`: the list of a clipboard has each filled cell once.
-/

namespace VoxelEdit

/-! ## The index -/

namespace PaletteIndex

/-- An index sends blocks to an entry with just these blocks and no tag tree, and knows the blocks
of every entry without a tag tree. -/
structure Indexes (index : PaletteIndex) (palette : Array Entry) : Prop where
  sound : ∀ key id, index[key]? = some id →
    ∃ e : Entry, palette[id]? = some e ∧ e.entity = none ∧ e.key = key
  complete : ∀ (id : Nat) (e : Entry), palette[id]? = some e → e.entity = none →
    ∃ id', index[e.key]? = some id'

variable {index : PaletteIndex} {palette : Array Entry} {e : Entry}

theorem enter_of_entity (h : e.entity.isSome = true) (id : Nat) : index.enter e id = index :=
  if_pos h

theorem getElem?_enter (h : e.entity = none) (id : Nat) (key : PaletteKey) :
    (index.enter e id)[key]? = if e.key = key then some id else index[key]? := by
  rw [enter, if_neg (by simp [h]), Std.HashMap.getElem?_insert]
  simp only [beq_iff_eq]

theorem indexes_empty : Indexes ∅ #[] where
  sound := by
    intro key id h
    rw [Std.HashMap.getElem?_empty] at h
    exact nomatch h
  complete := by
    intro id e h
    rw [Array.getElem?_empty] at h
    exact nomatch h

/-- A new entry at the end of the palette, entered with its number. -/
theorem Indexes.push (h : index.Indexes palette) (e : Entry) :
    (index.enter e palette.size).Indexes (palette.push e) where
  sound := by
    intro key id hid
    -- what the old index says is still right, for the old entries keep their numbers
    have hold (hid : index[key]? = some id) :
        ∃ f : Entry, (palette.push e)[id]? = some f ∧ f.entity = none ∧ f.key = key := by
      obtain ⟨f, hf, hnone, hkey⟩ := h.sound key id hid
      have hlt := (Array.getElem?_eq_some_iff.1 hf).1
      have hpushed : (palette.push e)[id]? = some f := by
        rw [Array.getElem?_push_lt hlt, ← hf, Array.getElem?_eq_getElem hlt]
      exact ⟨f, hpushed, hnone, hkey⟩
    cases he : e.entity with
    | some fields =>
      rw [enter_of_entity (by simp [he])] at hid
      exact hold hid
    | none =>
      rw [getElem?_enter he] at hid
      split at hid
      · rename_i hkey
        obtain rfl := Option.some.inj hid
        exact ⟨e, Array.getElem?_push_size, he, hkey⟩
      · exact hold hid
  complete := by
    intro id f hf hnone
    have hold (hf : palette[id]? = some f) :
        ∃ id', (index.enter e palette.size)[f.key]? = some id' := by
      obtain ⟨id', hid'⟩ := h.complete id f hf hnone
      cases he : e.entity with
      | some fields => exact ⟨id', by rw [enter_of_entity (by simp [he]), hid']⟩
      | none =>
        rw [getElem?_enter he]
        split
        · exact ⟨_, rfl⟩
        · exact ⟨id', hid'⟩
    rw [Array.getElem?_push] at hf
    split at hf
    · obtain rfl := Option.some.inj hf
      exact ⟨palette.size, by rw [getElem?_enter hnone, if_pos rfl]⟩
    · exact hold hf

/-- Making an index anew goes through the palette entry by entry. -/
theorem ofPalette_push (palette : Array Entry) (e : Entry) :
    ofPalette (palette.push e) = (ofPalette palette).enter e palette.size := by
  unfold ofPalette
  rw [Array.toList_push, List.zipIdx_append, List.foldl_append, Array.length_toList, Nat.zero_add]
  rfl

/-- **An index that is made anew indexes its palette.** -/
theorem ofPalette_indexes (palette : Array Entry) : (ofPalette palette).Indexes palette := by
  obtain ⟨entries⟩ := palette
  induction entries using List.reverseRecOn with
  | nil => exact indexes_empty
  | append_singleton entries e ih =>
    have hpush : (⟨entries ++ [e]⟩ : Array Entry) = (⟨entries⟩ : Array Entry).push e := by simp
    rw [hpush, ofPalette_push]
    exact ih.push e

end PaletteIndex

/-! ## Coherent clipboards -/

namespace Clipboard

/-- A cell for each position, each with its entry, and the index of the palette. -/
structure Coherent (c : Clipboard) : Prop extends Solid c where
  below : ∀ id, some id ∈ c.cells → id < c.palette.size
  index : c.index = .ofPalette c.palette

variable {c : Clipboard} {p q : Pos} {e : Entry}

theorem Coherent.indexes (hc : c.Coherent) : c.index.Indexes c.palette := by
  rw [hc.index]
  exact PaletteIndex.ofPalette_indexes c.palette

/-- The number of an interned entry leads to it. -/
theorem intern_entry (hc : c.Coherent) (e : Entry) :
    (c.intern e).2.palette[(c.intern e).1]? = some e := by
  rcases c.intern_cases e with ⟨id, hnone, hid, heq⟩ | heq
  · rw [heq]
    obtain ⟨f, hf, hfnone, hkey⟩ := hc.indexes.sound e.key id hid
    have hfe : f = e := by
      obtain ⟨fblock, fextra, fentity⟩ := f
      obtain ⟨block, extra, entity⟩ := e
      obtain ⟨rfl, rfl⟩ := Prod.mk.inj hkey
      obtain rfl : fentity = none := hfnone
      obtain rfl : entity = none := hnone
      rfl
    rw [← hfe]
    exact hf
  · rw [heq]
    exact Array.getElem?_push_size

/-- Interning leaves the entries that were there. -/
theorem intern_old (c : Clipboard) (e : Entry) {id : Nat} (h : id < c.palette.size) :
    (c.intern e).2.palette[id]? = c.palette[id]? := by
  rcases c.intern_cases e with ⟨_, _, _, heq⟩ | heq
  · rw [heq]
  · rw [heq, Array.getElem?_push_lt h, Array.getElem?_eq_getElem h]

theorem intern_grows (c : Clipboard) (e : Entry) :
    c.palette.size ≤ (c.intern e).2.palette.size := by
  rcases c.intern_cases e with ⟨_, _, _, heq⟩ | heq
  · rw [heq]
  · rw [heq, Array.size_push]
    exact Nat.le_succ _

theorem intern_index (h : c.index = .ofPalette c.palette) (e : Entry) :
    (c.intern e).2.index = .ofPalette (c.intern e).2.palette := by
  rcases c.intern_cases e with ⟨_, _, _, heq⟩ | heq
  · rw [heq]
    exact h
  · rw [heq]
    show c.index.enter e c.palette.size = .ofPalette (c.palette.push e)
    rw [PaletteIndex.ofPalette_push, h]

theorem Coherent.put (hc : c.Coherent) (p : Pos) (e : Entry) : (c.put p e).Coherent := by
  have hsolid := hc.toSolid.put p e
  rw [put_eq] at hsolid ⊢
  refine ⟨hsolid, ?_, intern_index hc.index e⟩
  intro id hid
  rcases Array.mem_or_eq_of_mem_setIfInBounds hid with hid | hid
  · exact (hc.below id hid).trans_le (c.intern_grows e)
  · rw [Option.some.inj hid]
    exact (Array.getElem?_eq_some_iff.1 (intern_entry hc e)).1

theorem Coherent.store (hc : c.Coherent) (p : Pos) (e : Entry) : (c.store p e).Coherent := by
  unfold Clipboard.store
  split
  · exact hc.put p e
  · exact hc

theorem new_coherent (size : Pos) : (new size).Coherent where
  toSolid := new_solid size
  below := by
    intro id hid
    have hnone := (Array.mem_replicate.1 hid).2
    exact absurd hnone (by simp)
  index := rfl

theorem capture_coherent {R : Type} [Radius R] (r : Region R) (w : World) (player : Pos) :
    (capture r w player).Coherent := by
  have hfold := List.foldlRecOn (motive := Coherent) r.positions
    (fun c p => c.store (p - r.box.min) (w.get ⟨r.dim, p⟩)) (new_coherent r.box.dims)
    fun c hc p _ => hc.store _ _
  exact ⟨⟨hfold.proper, hfold.cells⟩, hfold.below, hfold.index⟩

theorem Coherent.relocated {size' : Pos} {place source : Pos → Pos} (hc : c.Coherent)
    (hl : Layout c.size size' place source) (f : Block → Block) :
    (c.relocated size' place source f).Coherent where
  toSolid := hc.toSolid.relocated hl
  below := by
    intro id hid
    obtain ⟨i, -, hi⟩ := Array.mem_map.1 hid
    have hmem : some id ∈ c.cells := Array.mem_of_getElem? (Option.join_eq_some_iff.1 hi)
    simp only [Clipboard.relocated, Array.size_map]
    exact hc.below id hmem
  index := rfl

theorem Coherent.step (hc : c.Coherent) (s : Step) : (s.act c).Coherent := by
  rw [Step.act_eq]
  exact hc.relocated (s.layout c.size) _

theorem Coherent.steps (hc : c.Coherent) (l : List Step) : (l.foldl Step.act c).Coherent :=
  List.foldlRecOn l Step.act hc fun _ hc s _ => hc.step s

theorem decode_coherent {bs : List UInt8} (h : decode? bs = some (.ok c)) : c.Coherent := by
  obtain ⟨hproper, hcount, hbelow, hindex, -⟩ := decode?_eq_ofParts h
  exact ⟨⟨hproper, hcount⟩, hbelow, hindex⟩

/-- **Every clipboard that is made is coherent.** -/
theorem Made.coherent (hc : c.Made) : c.Coherent := by
  induction hc with
  | new size => exact new_coherent size
  | store p e _ ih => exact ih.store p e
  | clear _ _ => exact new_coherent _
  | capture r w player => exact capture_coherent r w player
  | rotate angles _ h ih =>
    rw [Move.act?_eq (.rotate angles) h]
    exact ih.steps _
  | mirror axis _ ih => exact ih.step (.mirror axis)
  | decode bs h => exact decode_coherent h

/-! ## What is stored is found -/

/-- Different positions inside have different cells. -/
theorem indexOf_toNat_inj {b : Box} (hp : b.contains p = true) (hq : b.contains q = true)
    (h : (b.indexOf p).toNat = (b.indexOf q).toNat) : p = q := by
  have hp0 := Box.indexOf_nonneg hp
  have hq0 := Box.indexOf_nonneg hq
  have hindex : b.indexOf p = b.indexOf q := by omega
  rw [← Box.posAt_indexOf hp, hindex, Box.posAt_indexOf hq]

/-- **A filled cell shows its entry, and every other cell what it did.** -/
theorem get?_put (hc : c.Coherent) (hp : c.localBox.contains p = true) (e : Entry)
    (q : Pos) : (c.put p e).get? q = if q = p then some e else c.get? q := by
  have hbox : (c.put p e).localBox = c.localBox := by
    rw [put_eq]
    rfl
  have hlt : (c.localBox.indexOf p).toNat < c.cells.size :=
    (hc.lt_size_iff (Box.indexOf_nonneg hp)).2 (Box.indexOf_lt_volume hp)
  have hcell (i : Int) : (c.put p e).cell? i =
      if (c.localBox.indexOf p).toNat = i.toNat then some (c.intern e).1 else c.cell? i := by
    rw [put_eq]
    unfold cell?
    simp only [Array.getElem?_setIfInBounds, if_pos hlt]
    split <;> rfl
  have hpalette : (c.put p e).palette = (c.intern e).2.palette := by rw [put_eq]
  rw [get?_eq, get?_eq, hbox, hcell, hpalette]
  by_cases hq : c.localBox.contains q = true
  · rw [if_pos hq, if_pos hq]
    by_cases hqp : q = p
    · subst hqp
      rw [if_pos rfl, if_pos rfl, Option.bind_some]
      exact intern_entry hc e
    · rw [if_neg fun h => hqp (indexOf_toNat_inj hp hq h).symm, if_neg hqp]
      -- the cell keeps its number, and the number its entry
      cases hid : c.cell? (c.localBox.indexOf q) with
      | none => rfl
      | some id =>
        have hmem : some id ∈ c.cells := Array.mem_of_getElem? (Option.join_eq_some_iff.1 hid)
        exact c.intern_old e (hc.below id hmem)
  · have hqp : q ≠ p := fun h => hq (h ▸ hp)
    rw [if_neg hq, if_neg hq, if_neg hqp]

/-- **What a store shows**: the entry at its position if that lies inside, and all else as
before. -/
theorem get?_store (hc : c.Coherent) (p : Pos) (e : Entry) (q : Pos) :
    (c.store p e).get? q =
      if q = p ∧ c.localBox.contains p = true then some e else c.get? q := by
  unfold Clipboard.store
  by_cases hp : c.localBox.contains p = true
  · rw [if_pos hp, get?_put hc hp]
    simp only [hp, and_true]
  · rw [if_neg hp, if_neg fun h => hp h.2]

/-! ## Each filled cell once -/

theorem localBox_ordered (c : Clipboard) : c.localBox.Ordered := Box.span_ordered _ _

/-- No two items of the list of a clipboard have one position. -/
theorem toList_pairwise (c : Clipboard) : c.toList.Pairwise fun x y => x.1 ≠ y.1 := by
  have hnumbers : c.cells.toList.zipIdx.Pairwise fun x y => x.2 ≠ y.2 := by
    rw [← List.pairwise_map (R := (· ≠ ·)), List.zipIdx_map_snd]
    exact List.nodup_range'
  have hfilled : c.filled.Pairwise fun x y => x.1 ≠ y.1 := by
    refine List.Pairwise.filterMap _ ?_ hnumbers
    intro x y hxy a ha b hb hab
    obtain ⟨id, -, rfl⟩ := Option.map_eq_some_iff.1 ha
    obtain ⟨id', -, rfl⟩ := Option.map_eq_some_iff.1 hb
    have hindex := congrArg c.localBox.indexOf hab
    rw [Box.indexOf_posAt c.localBox_ordered, Box.indexOf_posAt c.localBox_ordered] at hindex
    exact hxy (Int.ofNat.inj hindex)
  refine List.Pairwise.filterMap _ ?_ hfilled
  intro x y hxy a ha b hb
  obtain ⟨e, -, rfl⟩ := Option.map_eq_some_iff.1 ha
  obtain ⟨e', -, rfl⟩ := Option.map_eq_some_iff.1 hb
  exact hxy

theorem length_filled (c : Clipboard) : c.filled.length = c.count := by
  have hfirst : (fun x : Option Nat × Nat =>
      (x.1.map fun id => (c.localBox.posAt x.2, id)).isSome) = Option.isSome ∘ Prod.fst := by
    funext x
    exact Option.isSome_map
  unfold filled count
  rw [List.length_filterMap_eq_countP]
  show c.cells.toList.zipIdx.countP (fun x =>
    (x.1.map fun id => (c.localBox.posAt x.2, id)).isSome) = _
  rw [hfirst, ← List.countP_map, List.zipIdx_map_fst, Array.countP_toList]

/-- The list of a coherent clipboard leaves no filled cell out. -/
theorem Coherent.length_toList (hc : c.Coherent) : c.toList.length = c.count := by
  unfold toList
  rw [List.length_filterMap_eq_countP, ← length_filled, List.countP_eq_length]
  rintro ⟨p, id⟩ hmem
  obtain ⟨⟨cell, i⟩, hcell, hpair⟩ := List.mem_filterMap.1 hmem
  obtain ⟨id', rfl, heq⟩ := Option.map_eq_some_iff.1 hpair
  obtain ⟨-, rfl⟩ := Prod.mk.inj heq
  have hlt := hc.below id' (Array.mem_toList_iff.1 (List.fst_mem_of_mem_zipIdx hcell))
  simp [hlt]

end Clipboard

end VoxelEdit
