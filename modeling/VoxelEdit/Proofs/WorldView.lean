import Mathlib.Tactic.Set
import VoxelEdit.World.History

/-!
# What worlds show

A world is seen through `World.get`. These lemmas say what each operation does to that view, so
that nothing later opens the map of a world.

* `Made`: the worlds that writing to the empty one gives. None of them has a locked site, and
  each shows what it would keep of what it shows (`Made.free`, `Made.tidy`).
* `get_writeAll`: a list of writes shows at its positions what it says there, and changes
  nothing elsewhere.
* `Snapshot.Leads`: a snapshot leads from one view to another if it holds what the other shows
  wherever they differ. Restoring it arrives there, and what it leaves behind leads back.
-/

namespace VoxelEdit

/-- What a world keeps of an entry: an empty one leaves plain air. -/
def Entry.kept (e : Entry) : Entry := if e.isAir then .air else e

@[simp] theorem Entry.kept_air : Entry.air.kept = .air := by
  simp [kept]

theorem Entry.kept_kept (e : Entry) : e.kept.kept = e.kept := by
  by_cases h : e.isAir
  · simp [kept, h]
  · simp [kept, h]

/-- What stands at each site. -/
abbrev View := Site → Entry

namespace World

/-- The worlds made from the empty one by writes. -/
inductive Made : World → Prop
  | empty : Made empty
  | write {w : World} (s : Site) (e : Entry) (mode : UpdateMode) : Made w →
      Made (w.write s e mode).1

/-- No site is locked. -/
def Free (w : World) : Prop := ∀ s, w.locked.contains s = false

/-- Nothing stands there that a write would not leave so. -/
def Tidy (w : World) : Prop := ∀ s, (w.get s).kept = w.get s

variable {w : World} {dim : Int}

theorem get_put (s t : Site) (e : Entry) (mode : UpdateMode) :
    (w.put s e mode).get t = if t = s then e.kept else w.get t := by
  unfold put get Entry.kept
  by_cases ht : t = s
  · subst ht
    by_cases he : e.isAir <;> simp [he]
  · have hs : (s == t) = false := beq_eq_false_iff_ne.2 (Ne.symm ht)
    by_cases he : e.isAir <;> simp [he, ht, hs, Std.HashMap.getD_erase, Std.HashMap.getD_insert]

theorem write_free (hw : w.Free) (s : Site) (e : Entry) (mode : UpdateMode) :
    w.write s e mode = (w.put s e mode, true) := by
  simp [write, hw s]

theorem Free.put (hw : w.Free) (s : Site) (e : Entry) (mode : UpdateMode) :
    (w.put s e mode).Free := hw

theorem Tidy.put (hw : w.Tidy) (s : Site) (e : Entry) (mode : UpdateMode) :
    (w.put s e mode).Tidy := by
  intro t
  rw [get_put]
  by_cases h : t = s
  · rw [if_pos h, Entry.kept_kept]
  · rw [if_neg h, hw t]

theorem Made.free (hw : w.Made) : w.Free := by
  induction hw with
  | empty => intro s; simp [World.empty]
  | write s e mode _ ih => rw [write_free ih]; exact ih.put s e mode

theorem Made.tidy (hw : w.Made) : w.Tidy := by
  induction hw with
  | empty => intro s; simp [World.empty, get]
  | write s e mode hw ih => rw [write_free hw.free]; exact ih.put s e mode

/-! ## Lists of writes -/

/-- The count of a fold of writes moves out of it. -/
theorem foldl_write_count {mode : UpdateMode} {step : World × Nat → Pos × Entry → World × Nat}
    (hstep : ∀ (w : World) (n : Nat) (x : Pos × Entry), step (w, n) x =
      ((w.write ⟨dim, x.1⟩ x.2 mode).1,
        if (w.write ⟨dim, x.1⟩ x.2 mode).2 then n + 1 else n))
    (es : List (Pos × Entry)) (w : World) (n : Nat) :
    es.foldl step (w, n) = ((es.foldl step (w, 0)).1, (es.foldl step (w, 0)).2 + n) := by
  induction es generalizing w n with
  | nil => simp
  | cons x es ih =>
    rw [List.foldl_cons, List.foldl_cons, hstep, hstep]
    split
    · rw [ih _ (n + 1), ih _ (0 + 1), Nat.zero_add, Nat.add_assoc, Nat.add_comm 1 n]
    · exact ih _ n

/-- Writes to a world without locked sites, one after the other. -/
theorem writeAll_cons (hw : w.Free) (p : Pos) (e : Entry) (es : List (Pos × Entry))
    (mode : UpdateMode) :
    w.writeAll dim ((p, e) :: es) mode =
      (((w.put ⟨dim, p⟩ e mode).writeAll dim es mode).1,
        ((w.put ⟨dim, p⟩ e mode).writeAll dim es mode).2 + 1) := by
  unfold writeAll
  simp only [List.foldl_cons, write_free hw, if_true]
  exact foldl_write_count (fun _ _ _ => rfl) es _ _

theorem Free.writeAll (hw : w.Free) (es : List (Pos × Entry)) (mode : UpdateMode) :
    (w.writeAll dim es mode).1.Free := by
  induction es generalizing w with
  | nil => exact hw
  | cons x es ih => rw [writeAll_cons hw]; exact ih (hw.put _ _ _)

theorem Tidy.writeAll (hf : w.Free) (hw : w.Tidy) (es : List (Pos × Entry)) (mode : UpdateMode) :
    (w.writeAll dim es mode).1.Tidy := by
  induction es generalizing w with
  | nil => exact hw
  | cons x es ih => rw [writeAll_cons hf]; exact ih (hf.put _ _ _) (hw.put _ _ _)

/-- Every write is taken and counted. -/
theorem writeAll_count (hw : w.Free) (es : List (Pos × Entry)) (mode : UpdateMode) :
    (w.writeAll dim es mode).2 = es.length ∧
      (w.writeAll dim es mode).1.writes = w.writes + es.length := by
  induction es generalizing w with
  | nil => exact ⟨rfl, rfl⟩
  | cons x es ih =>
    obtain ⟨h1, h2⟩ := ih (hw.put ⟨dim, x.1⟩ x.2 mode)
    rw [writeAll_cons hw]
    refine ⟨by simp [h1], ?_⟩
    have h3 : (w.put ⟨dim, x.1⟩ x.2 mode).writes = w.writes + 1 := rfl
    simp only [h2, h3, List.length_cons]
    omega

/-- Sites that are not written to stay as they were. -/
theorem get_writeAll_of_notMem (hw : w.Free) {es : List (Pos × Entry)} {mode : UpdateMode} {t : Site}
    (ht : ¬ (t.dim = dim ∧ t.pos ∈ es.map Prod.fst)) :
    (w.writeAll dim es mode).1.get t = w.get t := by
  induction es generalizing w with
  | nil => rfl
  | cons x es ih =>
    rw [writeAll_cons hw, ih (hw.put _ _ _) (fun h => ht ⟨h.1, List.mem_cons_of_mem _ h.2⟩), get_put]
    rw [if_neg]
    rintro rfl
    exact ht ⟨rfl, by simp⟩

/-- **What a list of writes shows.** If all writes to a position leave the same there, `f` of it,
then that is what the world shows at the positions of the list. -/
theorem get_writeAll (hw : w.Free) {es : List (Pos × Entry)} {mode : UpdateMode} {f : Pos → Entry}
    (hf : ∀ x ∈ es, x.2.kept = f x.1) (t : Site) :
    (w.writeAll dim es mode).1.get t =
      if t.dim = dim ∧ t.pos ∈ es.map Prod.fst then f t.pos else w.get t := by
  induction es generalizing w with
  | nil => simp [writeAll]
  | cons x es ih =>
    have hx : x.2.kept = f x.1 := hf x (by simp)
    rw [writeAll_cons hw, ih (hw.put _ _ _) (fun y hy => hf y (List.mem_cons_of_mem _ hy)), get_put, hx]
    by_cases hd : t.dim = dim
    · -- a later write hides the first one, but leaves the same there
      by_cases hm : t.pos ∈ es.map Prod.fst
      · rw [if_pos ⟨hd, hm⟩, if_pos ⟨hd, List.mem_cons_of_mem _ hm⟩]
      · by_cases hp : t.pos = x.1
        · have ht : t = ⟨dim, x.1⟩ := by cases t; simp_all
          rw [if_neg (fun h => hm h.2), if_pos ht, if_pos ⟨hd, by simp [hp]⟩, hp]
        · have ht : t ≠ ⟨dim, x.1⟩ := fun h => hp (by rw [h])
          rw [if_neg (fun h => hm h.2), if_neg ht, if_neg]
          rintro ⟨-, h⟩
          rcases List.mem_cons.1 h with h | h
          · exact hp h
          · exact hm h
    · have ht : t ≠ ⟨dim, x.1⟩ := fun h => hd (by rw [h])
      rw [if_neg (fun h => hd h.1), if_neg ht, if_neg (fun h => hd h.1)]

end World

/-! ## Snapshots -/

namespace Snapshot

/-- The snapshot holds what `v'` shows at its positions, and elsewhere `v` shows the same as
`v'`. -/
structure Leads (s : Snapshot) (v v' : View) : Prop where
  inside : ∀ x ∈ s.blocks, x.2.kept = v' ⟨s.dim, x.1⟩
  outside : ∀ t : Site, ¬ (t.dim = s.dim ∧ t.pos ∈ s.blocks.map Prod.fst) → v t = v' t

variable {w : World} {s : Snapshot} {mode : UpdateMode}

theorem capture_positions (dim : Int) (ps : List Pos) :
    (capture w dim ps).blocks.map Prod.fst = ps := by
  unfold capture
  rw [List.map_map]
  exact List.map_id ps

/-- A captured snapshot leads back from any view that differs at its positions only. -/
theorem capture_leads (hw : w.Tidy) (dim : Int) (ps : List Pos) {v : View}
    (hv : ∀ t : Site, ¬ (t.dim = dim ∧ t.pos ∈ ps) → v t = w.get t) :
    (capture w dim ps).Leads v w.get := by
  refine ⟨?_, ?_⟩
  · intro x hx
    obtain ⟨p, -, rfl⟩ := List.mem_map.1 hx
    exact hw _
  · intro t ht
    rw [capture_positions] at ht
    exact hv t ht

/-- **Restoring arrives.** -/
theorem get_restore (hw : w.Free) {v : View} (hs : s.Leads w.get v) :
    (s.restore w mode).2.get = v := by
  funext t
  set f : Pos → Entry := fun p => v ⟨s.dim, p⟩
  have hf : ∀ x ∈ s.blocks.reverse, x.2.kept = f x.1 :=
    fun x hx => hs.inside x (List.mem_reverse.1 hx)
  unfold restore
  rw [World.get_writeAll hw hf t]
  by_cases ht : t.dim = s.dim ∧ t.pos ∈ s.blocks.map Prod.fst
  · rw [if_pos (by simpa [List.map_reverse] using ht)]
    show v ⟨s.dim, t.pos⟩ = v t
    rw [← ht.1]
  · rw [if_neg (by simpa [List.map_reverse] using ht)]
    exact hs.outside t ht

/-- **What a restore leaves behind leads back.** -/
theorem restore_leads (hw : w.Tidy) {v : View} (hs : s.Leads w.get v) (mode : UpdateMode) :
    (s.restore w mode).1.Leads v w.get :=
  capture_leads hw _ _ fun t ht => (hs.outside t ht).symm

end Snapshot

end VoxelEdit
