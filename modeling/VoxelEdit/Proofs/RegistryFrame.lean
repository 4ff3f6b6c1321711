import VoxelEdit.Player.Registry
import VoxelEdit.Proofs.PlayerKeys

/-!
# What a registry leaves alone

`PlayerRegistry.SameFor` says that nothing happened to a player between two registries: the settings
are the same, what is stored for the player is, and so are the players at work with that identity.
Every operation on another player leaves this much.
-/

namespace VoxelEdit

namespace PlayerRegistry

section

variable {R : Type} {g g' g'' : PlayerRegistry R} {u : PlayerId} {p q : Player R}

/-- Nothing happened to a player between two registries. -/
structure SameFor (u : PlayerId) (g g' : PlayerRegistry R) : Prop where
  config : g'.config = g.config
  refusing : g'.store.refusing = g.store.refusing
  stored : g'.store.get? u.text = g.store.get? u.text
  players : ∀ p, p.id = u → (p ∈ g'.players ↔ p ∈ g.players)

theorem SameFor.refl (u : PlayerId) (g : PlayerRegistry R) : SameFor u g g :=
  ⟨rfl, rfl, rfl, fun _ _ => Iff.rfl⟩

theorem SameFor.trans (h : SameFor u g g') (h' : SameFor u g' g'') : SameFor u g g'' :=
  ⟨h'.config.trans h.config, h'.refusing.trans h.refusing, h'.stored.trans h.stored,
    fun p hp => (h'.players p hp).trans (h.players p hp)⟩

theorem sameFor_canvas (u : PlayerId) (g : PlayerRegistry R) (canvas : Canvas R) :
    SameFor u g { g with canvas } := ⟨rfl, rfl, rfl, fun _ _ => Iff.rfl⟩

theorem mem_put : q ∈ (g.put p).players ↔ q = p ∨ q ∈ g.players ∧ q.id ≠ p.id := by
  show q ∈ p :: g.players.filter (fun q => q.id ≠ p.id) ↔ _
  rw [List.mem_cons, List.mem_filter, decide_eq_true_eq]

theorem mem_drop : q ∈ (g.drop p).players ↔ q ∈ g.players ∧ q.id ≠ p.id := by
  show q ∈ g.players.filter (fun q => q.id ≠ p.id) ↔ _
  rw [List.mem_filter, decide_eq_true_eq]

theorem sameFor_put (hp : p.id ≠ u) : SameFor u g (g.put p) where
  config := rfl
  refusing := rfl
  stored := rfl
  players q hq := by
    rw [mem_put]
    constructor
    · rintro (rfl | ⟨hmem, -⟩)
      · exact absurd hq hp
      · exact hmem
    · exact fun hmem => .inr ⟨hmem, fun heq => hp (heq ▸ hq)⟩

theorem sameFor_drop (hp : p.id ≠ u) : SameFor u g (g.drop p) where
  config := rfl
  refusing := rfl
  stored := rfl
  players q hq := by
    rw [mem_drop]
    exact ⟨And.left, fun hmem => ⟨hmem, fun heq => hp (heq ▸ hq)⟩⟩

theorem sameFor_dropAll {ps : List (Player R)} (hps : ∀ p ∈ ps, p.id ≠ u) :
    SameFor u g (g.dropAll ps) := by
  induction ps generalizing g with
  | nil => exact .refl u g
  | cons p ps ih =>
    have hdrop : SameFor u g (g.drop p) := sameFor_drop (hps p List.mem_cons_self)
    exact hdrop.trans (ih fun q hq => hps q (List.mem_cons_of_mem p hq))

theorem store_dropAll (g : PlayerRegistry R) (ps : List (Player R)) :
    (g.dropAll ps).store = g.store := by
  induction ps generalizing g with
  | nil => rfl
  | cons p ps ih => exact ih (g.drop p)

theorem live?_eq_some (h : g.live? u = some p) : p ∈ g.players ∧ p.id = u := by
  have hid := List.find?_some (show g.players.find? (fun p => p.id == u) = some p from h)
  exact ⟨List.mem_of_find?_eq_some h, eq_of_beq hid⟩

theorem live?_eq_none (h : g.live? u = none) : ∀ p ∈ g.players, p.id ≠ u := by
  intro p hp hid
  have := List.find?_eq_none.1 h p hp
  exact this (beq_iff_eq.2 hid)

theorem sameFor_remove {id : PlayerId} (hid : id ≠ u) : SameFor u g (g.remove id) := by
  have hkey : u.text ≠ id.text := fun heq => hid (PlayerId.text_injective heq).symm
  have herase (g : PlayerRegistry R) : SameFor u g { g with store := g.store.erase id.text } :=
    ⟨rfl, rfl, g.store.get?_erase_of_ne hkey, fun _ _ => Iff.rfl⟩
  unfold remove
  cases h : g.live? id with
  | none => exact herase g
  | some p =>
    have hp : p.id ≠ u := by rwa [(live?_eq_some h).2]
    exact (sameFor_drop hp).trans (herase _)

end

variable {R : Type} [Radius R] {g g' : PlayerRegistry R} {u id : PlayerId} {p : Player R}

/-- Saving writes under the key of the player and notes that there is nothing left to save. -/
theorem save?_eq_some (h : g.save? p = some g') : ∃ bytes store, p.session.encode? = some bytes ∧
    g.store.set? p.id.text bytes = some store ∧
      g' = { g with store }.put { p with session := { p.session with dirty := false } } := by
  obtain ⟨bytes, hbytes, h⟩ := Option.bind_eq_some_iff.1 h
  obtain ⟨store, hstore, h⟩ := Option.bind_eq_some_iff.1 h
  exact ⟨bytes, store, hbytes, hstore, (Option.some.inj h).symm⟩

theorem sameFor_save (hp : p.id ≠ u) (h : g.save? p = some g') : SameFor u g g' := by
  obtain ⟨bytes, store, -, hstore, rfl⟩ := save?_eq_some h
  have hkey : u.text ≠ p.id.text := fun heq => hp (PlayerId.text_injective heq).symm
  have hwrite : SameFor u g { g with store } :=
    ⟨rfl, Store.refusing_set hstore, Store.get?_set_of_ne hstore hkey, fun _ _ => Iff.rfl⟩
  exact hwrite.trans (sameFor_put hp)

theorem sameFor_flushOne {n : Nat} (hp : p.id ≠ u) : SameFor u g (flushOne (g, n) p).1 := by
  unfold flushOne
  split
  · cases hs : g.save? p with
    | none => exact .refl u g
    | some g' => exact sameFor_save hp hs
  · exact .refl u g

theorem config_flushOne (gn : PlayerRegistry R × Nat) (p : Player R) :
    (flushOne gn p).1.config = gn.1.config := by
  unfold flushOne
  split
  · cases hs : gn.1.save? p with
    | none => rfl
    | some g' =>
      obtain ⟨bytes, store, -, -, rfl⟩ := save?_eq_some hs
      rfl
  · rfl

theorem config_flush (g : PlayerRegistry R) : g.flush.1.config = g.config := by
  have hfold (ps : List (Player R)) (gn : PlayerRegistry R × Nat) :
      (ps.foldl flushOne gn).1.config = gn.1.config := by
    induction ps generalizing gn with
    | nil => rfl
    | cons p ps ih => exact (ih _).trans (config_flushOne gn p)
  exact hfold g.players (g, 0)

theorem obtain_id (g : PlayerRegistry R) (id : PlayerId) (temporary : Bool) :
    (g.obtain id temporary).2.id = id := by
  unfold obtain
  cases h : g.live? id with
  | none => rfl
  | some p => exact (live?_eq_some h).2

theorem sameFor_obtain (hid : id ≠ u) (temporary : Bool) :
    SameFor u g (g.obtain id temporary).1 := by
  unfold obtain
  cases h : g.live? id with
  | none => exact (sameFor_canvas u g _).trans (sameFor_put hid)
  | some p => exact .refl u g

theorem sameFor_find (u id : PlayerId) (temporary : Bool) :
    SameFor u g (g.find? id temporary).1 := by
  unfold find?
  cases g.live? id with
  | some p => exact .refl u g
  | none =>
    dsimp only
    split
    · exact .refl u g
    · exact sameFor_canvas u g _

theorem sameFor_modify {α : Type} (hid : id ≠ u) (temporary : Bool)
    (f : Stage R → Stage R × α) : SameFor u g (g.modify id temporary f).1 := by
  have hput : (g.obtain id temporary).2.id ≠ u := by rwa [obtain_id]
  exact ((sameFor_obtain hid temporary).trans (sameFor_canvas u _ _)).trans (sameFor_put hput)

theorem handle_id (c : Click) (p : Player R) (canvas : Canvas R) :
    (c.handle p canvas).2.1.id = p.id := by
  unfold Click.handle
  split
  · rfl
  · dsimp only
    split <;> cases c.hand <;> rfl

theorem sameFor_click (hid : id ≠ u) (temporary : Bool) (c : Click) :
    SameFor u g (g.click id temporary c).1 := by
  have hput : (c.handle (g.obtain id temporary).2 (g.obtain id temporary).1.canvas).2.1.id ≠ u := by
    rwa [handle_id, obtain_id]
  exact ((sameFor_obtain hid temporary).trans (sameFor_canvas u _ _)).trans (sameFor_put hput)

theorem sameFor_release (hid : id ≠ u) : SameFor u g (g.release id).1 := by
  unfold release
  cases h : g.live? id with
  | none => exact .refl u g
  | some p =>
    have hp : p.id ≠ u := by rwa [(live?_eq_some h).2]
    dsimp only
    split
    · cases hs : g.save? p with
      | none => exact .refl u g
      | some g' => exact (sameFor_save hp hs).trans (sameFor_drop hp)
    · exact sameFor_drop hp

end PlayerRegistry

end VoxelEdit
