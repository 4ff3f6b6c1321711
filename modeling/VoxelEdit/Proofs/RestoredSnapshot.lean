import VoxelEdit.Proofs.WorldView

/-!
# Restoring any snapshot

A snapshot need not have been captured: it may hold one position several times, with contents that
differ, and contents that no world keeps. It is written back from its last entry to its first.

* `World.get_writeAll_reverse`: what entries show that are written from the last one to the first.
* `Snapshot.get_restored`: **a recorded position shows its first content**, as far as a world keeps
  it.
* `Snapshot.restore_inverse`: what a restore leaves behind takes it back, whatever was restored.
* `Snapshot.empty_content_forgotten`: of an empty content a world keeps only that it is empty.
-/

namespace VoxelEdit

namespace World

variable {w : World} {dim : Int} {mode : UpdateMode}

/-- The last of a list of writes. -/
theorem writeAll_concat (es : List (Pos × Entry)) (p : Pos) (e : Entry) :
    (w.writeAll dim (es ++ [(p, e)]) mode).1 =
      ((w.writeAll dim es mode).1.write ⟨dim, p⟩ e mode).1 := by
  simp [writeAll, List.foldl_append]

/-- **Writing from the last entry to the first** leaves the first one of each position. -/
theorem get_writeAll_reverse (hw : w.Free) (es : List (Pos × Entry)) (t : Site) :
    (w.writeAll dim es.reverse mode).1.get t =
      if t.dim = dim then ((es.lookup t.pos).map Entry.kept).getD (w.get t) else w.get t := by
  induction es with
  | nil => simp [writeAll]
  | cons x es ih =>
    obtain ⟨p, e⟩ := x
    -- the first entry is written last, over what the others have left
    rw [List.reverse_cons, writeAll_concat, write_free (hw.writeAll _ _), get_put, ih,
      List.lookup_cons]
    by_cases ht : t = ⟨dim, p⟩
    · subst ht
      simp
    · by_cases hd : t.dim = dim
      · have hp : (t.pos == p) = false := by
          rw [beq_eq_false_iff_ne]
          intro hp
          exact ht (by cases t; simp_all)
        simp [ht, hd, hp]
      · simp [ht, hd]

end World

namespace Snapshot

variable {w : World} {s : Snapshot} {mode : UpdateMode}

/-- The content that is recorded first for a position. -/
def first? (s : Snapshot) (p : Pos) : Option Entry := s.blocks.lookup p

theorem first?_eq_none {p : Pos} : s.first? p = none ↔ p ∉ s.blocks.map Prod.fst := by
  simp only [first?, List.lookup_eq_none_iff, List.mem_map, not_exists, not_and, bne_iff_ne]
  constructor
  · intro h x hx hp
    exact h x hx hp.symm
  · intro h x hx hp
    exact h x hx hp.symm

/-- **What a restored world shows**: the first content of each recorded position, and elsewhere what
was there before. -/
theorem get_restored (hw : w.Free) (s : Snapshot) (mode : UpdateMode) (t : Site) :
    (s.restore w mode).2.get t =
      if t.dim = s.dim then ((s.first? t.pos).map Entry.kept).getD (w.get t) else w.get t :=
  World.get_writeAll_reverse hw s.blocks t

/-- Positions that are not recorded stay as they were. -/
theorem get_restored_outside (hw : w.Free) (s : Snapshot) (mode : UpdateMode) {t : Site}
    (ht : ¬ (t.dim = s.dim ∧ t.pos ∈ s.blocks.map Prod.fst)) :
    (s.restore w mode).2.get t = w.get t := by
  rw [get_restored hw]
  by_cases hd : t.dim = s.dim
  · have hnone : s.first? t.pos = none := first?_eq_none.2 fun hp => ht ⟨hd, hp⟩
    simp [hd, hnone]
  · simp [hd]

/-- **What a restore leaves behind takes it back.** It was captured before the first write, so that
it holds for a repeated position the same content each time. -/
theorem restore_inverse (hf : w.Free) (hw : w.Tidy) (s : Snapshot) (mode mode' : UpdateMode) :
    ((s.restore w mode).1.restore (s.restore w mode).2 mode').2.get = w.get := by
  have hfree : (s.restore w mode).2.Free := hf.writeAll _ _
  refine get_restore hfree (capture_leads hw s.dim _ ?_)
  intro t ht
  exact get_restored_outside hf s mode ht

/-- **A restore and its inverse**, for any snapshot and any world made by writes. Each recorded
position shows what is recorded first for it, or plain air if that is empty. All other positions of
every dimension are unchanged, and the snapshot that the restore returns brings back what the world
showed before. -/
theorem restore_undone (hw : w.Made) (s : Snapshot) (mode mode' : UpdateMode) :
    (∀ p e, s.first? p = some e →
      (s.restore w mode).2.get ⟨s.dim, p⟩ = if e.isAir then .air else e) ∧
    (∀ t : Site, ¬ (t.dim = s.dim ∧ t.pos ∈ s.blocks.map Prod.fst) →
      (s.restore w mode).2.get t = w.get t) ∧
    ((s.restore w mode).1.restore (s.restore w mode).2 mode').2.get = w.get := by
  refine ⟨?_, ?_, restore_inverse hw.free hw.tidy s mode mode'⟩
  · intro p e he
    rw [get_restored hw.free]
    simp [he, Entry.kept]
  · intro t ht
    exact get_restored_outside hw.free s mode ht

/-- A snapshot with two contents for one position and an empty one for another. -/
theorem restore_undone_twice :
    let stone : Entry := .ofBlock (.ofName "minecraft:stone")
    let dirt : Entry := .ofBlock (.ofName "minecraft:dirt")
    let w := (World.empty.write ⟨0, ⟨1, 0, 0⟩⟩ dirt .quiet).1
    let s : Snapshot := ⟨0, [(.zero, stone), (⟨1, 0, 0⟩, .air), (.zero, dirt)]⟩
    w.Made ∧ s.first? .zero = some stone ∧
      (s.restore w .quiet).2.get ⟨0, .zero⟩ = stone ∧
      (s.restore w .quiet).2.get ⟨0, ⟨1, 0, 0⟩⟩ = .air ∧
      ((s.restore w .quiet).1.restore (s.restore w .quiet).2 .quiet).2.get = w.get := by
  intro stone dirt w s
  have hw : w.Made := .write _ _ _ .empty
  obtain ⟨hfirst, -, hinverse⟩ := restore_undone hw s .quiet .quiet
  have hstone : s.first? .zero = some stone := rfl
  have hair : s.first? ⟨1, 0, 0⟩ = some .air := rfl
  exact ⟨hw, hstone, hfirst _ _ hstone, hfirst _ _ hair, hinverse⟩

/-- Air with a data value is restored as plain air. -/
theorem empty_content_forgotten :
    let faded : Entry := .ofBlock ⟨Block.airName, 5, []⟩
    let s : Snapshot := ⟨0, [(.zero, faded)]⟩
    World.empty.Made ∧ s.first? .zero = some faded ∧
      (s.restore .empty .quiet).2.get ⟨0, .zero⟩ ≠ faded := by
  intro faded s
  have hfirst : s.first? .zero = some faded := rfl
  refine ⟨.empty, hfirst, ?_⟩
  rw [get_restored World.Made.empty.free, hfirst]
  intro h
  have hdata : (0 : UInt16) = 5 := congrArg (fun e : Entry => e.block.data) h
  exact absurd hdata (by decide)

end Snapshot

end VoxelEdit
