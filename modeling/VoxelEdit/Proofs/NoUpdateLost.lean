import VoxelEdit.Proofs.DoubleRadius
import VoxelEdit.Proofs.RegistryFrame
import VoxelEdit.Proofs.SessionReach

/-!
# The registry loses no update

A player who leaves is saved only if there are changes, and a player who comes back is read from
the store. The invariant `PlayerRegistry.Keeps` says of a player and a selection that the player has
this selection at work, and that the store has it, too, unless it is about to be saved.

* `RegistryOp`: the operations of a registry; `RegistryOp.leaves` says with which selection one of
  them leaves a player.
* `RegistryOp.keeps`: one operation keeps this selection.
* `PlayerRegistry.no_update_lost`: **over every course of operations, a player who is wanted has the
  selection that the operations on this player left**, whatever happened to others, and whatever was
  saved, released and restarted in between.
-/

namespace VoxelEdit

open Nbt

namespace PlayerRegistry

variable {R : Type} [StoredRadius R] {g g' : PlayerRegistry R} {u : PlayerId}
  {m m' : Selection R} {p : Player R}

/-! ## What is kept -/

/-- The selection that a player starts with who is not at work: the stored one if it can be read, or
that of a new session. -/
def reloaded (g : PlayerRegistry R) (u : PlayerId) : Selection R :=
  ((g.load? u).getD (.new g.config.player)).selection

/-- A registry in which a player has a selection and will have it again. -/
structure Keeps (g : PlayerRegistry R) (u : PlayerId) (m : Selection R) : Prop where
  storable : m.Storable
  bounded : m.config.Bounded
  accepting : g.store.refusing = false
  wand : ShortText g.config.player.wand
  defaults : g.config.player.Bounded
  live : ∀ p ∈ g.players, p.id = u → p.temporary = false ∧ p.session.selection = m ∧
    (p.session.dirty = false → g.reloaded u = m)
  away : (∀ p ∈ g.players, p.id ≠ u) → g.reloaded u = m

theorem SameFor.reloaded (h : SameFor u g g') : g'.reloaded u = g.reloaded u := by
  unfold PlayerRegistry.reloaded load?
  rw [h.stored, h.config]

theorem Keeps.same (h : g.Keeps u m) (hs : SameFor u g g') : g'.Keeps u m where
  storable := h.storable
  bounded := h.bounded
  accepting := hs.refusing.trans h.accepting
  wand := hs.config ▸ h.wand
  defaults := hs.config ▸ h.defaults
  live p hp hid := hs.reloaded ▸ h.live p ((hs.players p hid).1 hp) hid
  away hne := hs.reloaded ▸ h.away fun p hp hid => hne p ((hs.players p hid).2 hp) hid

theorem Keeps.put (h : g.Keeps u m) (hp : p.id = u) (ht : p.temporary = false)
    (hm : p.session.selection = m') (hstorable : m'.Storable) (hbounded : m'.config.Bounded)
    (hclean : p.session.dirty = false → g.reloaded u = m') : (g.put p).Keeps u m' where
  storable := hstorable
  bounded := hbounded
  accepting := h.accepting
  wand := h.wand
  defaults := h.defaults
  live q hq hid := by
    rcases mem_put.1 hq with rfl | ⟨-, hne⟩
    · exact ⟨ht, hm, hclean⟩
    · exact absurd (hid.trans hp.symm) hne
  away hne := absurd hp (hne p (mem_put.2 (.inl rfl)))

theorem Keeps.drop (h : g.Keeps u m) (hp : p.id = u) (hstored : g.reloaded u = m) :
    (g.drop p).Keeps u m where
  storable := h.storable
  bounded := h.bounded
  accepting := h.accepting
  wand := h.wand
  defaults := h.defaults
  live _ hq hid := absurd (hid.trans hp.symm) (mem_drop.1 hq).2
  away _ := hstored

/-- **What is written of a player is read back.** -/
theorem Keeps.reloaded_write {s : Session R} {bytes : List UInt8} {store : Store}
    (h : g.Keeps u m) (hs : s.selection = m) (hbytes : s.encode? = some bytes)
    (hstore : g.store.set? u.text bytes = some store) :
    ({ g with store } : PlayerRegistry R).reloaded u = m := by
  subst hs
  obtain ⟨bytes', hbytes', hread⟩ := Session.decode?_encode? h.storable h.bounded
  obtain rfl : bytes = bytes' := Option.some.inj (hbytes.symm.trans hbytes')
  have hload : ({ g with store } : PlayerRegistry R).load? u = some (.ofSelection s.selection) := by
    show (store.get? u.text).bind (fun bytes =>
      (Session.decode? bytes g.config.player : Except StateError (Session R)).toOption) = _
    rw [Store.get?_set_self hstore, Option.bind_some, hread]
    rfl
  unfold reloaded
  rw [hload]
  exact Session.selection_ofSelection _

/-- **A saved player has nothing to save and is stored.** -/
theorem Keeps.save (h : g.Keeps u m) (hp : p.id = u) (ht : p.temporary = false)
    (hm : p.session.selection = m) (hs : g.save? p = some g') :
    g'.Keeps u m ∧ g'.reloaded u = m := by
  obtain ⟨bytes, store, hbytes, hstore, rfl⟩ := save?_eq_some hs
  rw [hp] at hstore
  have hstored := h.reloaded_write hm hbytes hstore
  have hwrite : ({ g with store } : PlayerRegistry R).Keeps u m :=
    { storable := h.storable
      bounded := h.bounded
      accepting := (Store.refusing_set hstore).trans h.accepting
      wand := h.wand
      defaults := h.defaults
      live := fun q hq hid => ⟨(h.live q hq hid).1, (h.live q hq hid).2.1, fun _ => hstored⟩
      away := fun _ => hstored }
  exact ⟨hwrite.put hp ht hm h.storable h.bounded fun _ => hstored, hstored⟩

/-- A player whose selection is storable can be saved where writes are accepted. -/
theorem Keeps.exists_save (h : g.Keeps u m) (hm : p.session.selection = m) :
    ∃ g', g.save? p = some g' := by
  subst hm
  obtain ⟨bytes, hbytes, -⟩ := Session.decode?_encode? h.storable h.bounded
  obtain ⟨store, hstore⟩ := Store.set?_isSome h.accepting p.id.text bytes
  unfold save?
  rw [hbytes]
  show ∃ g', ((g.store.set? p.id.text bytes).bind fun store => _) = some g'
  rw [hstore]
  exact ⟨_, rfl⟩

/-- **A player who is wanted is at work with the selection that is kept.** -/
theorem Keeps.obtain (h : g.Keeps u m) : (g.obtain u false).1.Keeps u m ∧
    (g.obtain u false).2 ∈ (g.obtain u false).1.players := by
  unfold PlayerRegistry.obtain
  cases hl : g.live? u with
  | some p => exact ⟨h, (live?_eq_some hl).1⟩
  | none =>
    -- a player who was away starts with what is stored, and only the drawing is new
    have hstored := h.away (live?_eq_none hl)
    set s : Session R := (g.load? u).getD (.new g.config.player)
    have hattach : (g.attach s).session.selection = m := by
      unfold attach
      dsimp only
      split
      · exact (Stage.setOverlay_selection _ _).trans hstored
      · exact hstored
    have hcanvas := h.same (sameFor_canvas u g (g.attach s).canvas)
    exact ⟨hcanvas.put rfl rfl hattach h.storable h.bounded fun _ => hstored,
      mem_put.2 (.inl rfl)⟩

/-- **A session operation on a player at work** leaves the registry with what it makes of the
selection. -/
theorem Keeps.apply (h : g.Keeps u m) (hp : p ∈ g.players) (hid : p.id = u) {canvas : Canvas R}
    {op : SessionOp R} (hop : op.Takes ⟨p.session, canvas⟩)
    (hrange : (op.apply ⟨p.session, canvas⟩).session.selection.InRange)
    (hbounded : (op.apply ⟨p.session, canvas⟩).session.config.Bounded) {q : Player R}
    (hq : q.id = u) (ht : q.temporary = false)
    (hsession : q.session = (op.apply ⟨p.session, canvas⟩).session) (canvas' : Canvas R) :
    (({ g with canvas := canvas' } : PlayerRegistry R).put q).Keeps u q.session.selection := by
  obtain ⟨-, hm, hclean⟩ := h.live p hp hid
  have hcanvas := h.same (sameFor_canvas u g canvas')
  refine hcanvas.put hq ht rfl ?_ (hsession ▸ hbounded) fun hdirty => ?_
  · rw [hsession]
    exact SessionOp.storable (hm ▸ h.storable) hop hrange
  · -- without changes to save, the selection is the one before
    rw [hsession] at hdirty ⊢
    rcases op.kept ⟨p.session, canvas⟩ with hd | ⟨hsame, hd⟩
    · exact absurd (hdirty.symm.trans hd) (by decide)
    · rw [hsame, hm]
      exact hclean (hd.symm.trans hdirty)

/-- A click does what an operation of the session does, or nothing, and notes its tick. -/
theorem handle_cases (c : Click) (p : Player R) (canvas : Canvas R) :
    (c.handle p canvas).2.1.temporary = p.temporary ∧
      ((c.handle p canvas).2.1.session = p.session ∨
        ∃ op : SessionOp R, op.Takes ⟨p.session, canvas⟩ ∧
          (c.handle p canvas).2.1.session = (op.apply ⟨p.session, canvas⟩).session) := by
  unfold Click.handle
  split
  · exact ⟨rfl, .inl rfl⟩
  · dsimp only
    split
    · cases c.hand <;> exact ⟨rfl, .inl rfl⟩
    · unfold Click.select
      cases c.hand
      · exact ⟨rfl, .inr ⟨.setMain c.site, trivial, rfl⟩⟩
      · exact ⟨rfl, .inr ⟨.setVice c.site, trivial, rfl⟩⟩

/-- **A click of a player at work** leaves the registry with what it makes of the selection. -/
theorem Keeps.handle (h : g.Keeps u m) (hp : p ∈ g.players) (hid : p.id = u) (c : Click)
    {canvas : Canvas R} (hrange : (c.handle p canvas).2.1.session.selection.InRange)
    (hbounded : (c.handle p canvas).2.1.session.config.Bounded) (canvas' : Canvas R) :
    (({ g with canvas := canvas' } : PlayerRegistry R).put (c.handle p canvas).2.1).Keeps u
      (c.handle p canvas).2.1.session.selection := by
  obtain ⟨ht, hm, hclean⟩ := h.live p hp hid
  have hid' := (handle_id c p canvas).trans hid
  obtain ⟨ht', hsession⟩ := handle_cases c p canvas
  generalize (c.handle p canvas).2.1 = q at *
  rcases hsession with hsession | ⟨op, hop, hsession⟩
  · have hsame : q.session.selection = m := by rw [hsession, hm]
    have hcanvas := h.same (sameFor_canvas u g canvas')
    refine hcanvas.put hid' (ht'.trans ht) rfl (hsame ▸ h.storable) hbounded fun hdirty => ?_
    rw [hsession] at hdirty
    exact (hclean hdirty).trans hsame.symm
  · exact h.apply hp hid hop (hsession ▸ hrange) (hsession ▸ hbounded) hid' (ht'.trans ht) hsession
      canvas'

/-! ## Saving and leaving -/

theorem Keeps.flushOne (h : g.Keeps u m) {n : Nat}
    (hp : p.id = u → p.temporary = false ∧ p.session.selection = m) :
    (flushOne (g, n) p).1.Keeps u m := by
  by_cases hid : p.id = u
  · obtain ⟨ht, hm⟩ := hp hid
    obtain ⟨g', hs⟩ := h.exists_save hm
    unfold PlayerRegistry.flushOne
    rw [hs]
    split
    · exact (h.save hid ht hm hs).1
    · exact h
  · exact h.same (sameFor_flushOne hid)

/-- What is stored of a player with changes is right once the player was flushed. -/
theorem Keeps.reloaded_flushOne (h : g.Keeps u m) {n : Nat}
    (hp : p.id = u → p.temporary = false ∧ p.session.selection = m)
    (hdue : g.reloaded u = m ∨ p.id = u ∧ p.session.dirty = true) :
    (PlayerRegistry.flushOne (g, n) p).1.reloaded u = m := by
  by_cases hid : p.id = u
  · obtain ⟨ht, hm⟩ := hp hid
    obtain ⟨g', hs⟩ := h.exists_save hm
    unfold PlayerRegistry.flushOne mustSave
    rw [hs, ht]
    split
    · exact (h.save hid ht hm hs).2
    · rename_i hclean
      rcases hdue with hdue | ⟨-, hdirty⟩
      · exact hdue
      · exact absurd hdirty (by simpa using hclean)
  · rcases hdue with hdue | ⟨hid', -⟩
    · exact (sameFor_flushOne hid).reloaded.trans hdue
    · exact absurd hid' hid

/-- Flushing players of whom those with the identity have the selection. -/
theorem Keeps.flushAll (h : g.Keeps u m) (ps : List (Player R)) (n : Nat)
    (hps : ∀ p ∈ ps, p.id = u → p.temporary = false ∧ p.session.selection = m) :
    (ps.foldl PlayerRegistry.flushOne (g, n)).1.Keeps u m ∧
      ((g.reloaded u = m ∨ ∃ p ∈ ps, p.id = u ∧ p.session.dirty = true) →
        (ps.foldl PlayerRegistry.flushOne (g, n)).1.reloaded u = m) := by
  -- once the player is stored, those who are flushed later leave it so
  induction ps generalizing g n with
  | nil =>
    refine ⟨h, fun hdue => ?_⟩
    rcases hdue with hdue | ⟨p, hp, -⟩
    · exact hdue
    · exact nomatch hp
  | cons p ps ih =>
    have hp := hps p List.mem_cons_self
    obtain ⟨hkeeps, hstored⟩ := ih (h.flushOne hp) (PlayerRegistry.flushOne (g, n) p).2
      fun q hq => hps q (List.mem_cons_of_mem p hq)
    refine ⟨hkeeps, fun hdue => hstored ?_⟩
    rcases hdue with hdue | ⟨q, hq, hid, hdirty⟩
    · exact .inl (h.reloaded_flushOne hp (.inl hdue))
    · rcases List.mem_cons.1 hq with rfl | hq
      · exact .inl (h.reloaded_flushOne hp (.inr ⟨hid, hdirty⟩))
      · exact .inr ⟨q, hq, hid, hdirty⟩

/-- **After a flush the player is stored.** -/
theorem Keeps.flush (h : g.Keeps u m) : g.flush.1.Keeps u m ∧ g.flush.1.reloaded u = m := by
  obtain ⟨hkeeps, hstored⟩ := h.flushAll g.players 0
    fun p hp hid => ⟨(h.live p hp hid).1, (h.live p hp hid).2.1⟩
  refine ⟨hkeeps, hstored ?_⟩
  -- a player away or without changes is stored already; one with changes is among the flushed
  by_cases haway : ∀ p ∈ g.players, p.id ≠ u
  · exact .inl (h.away haway)
  · push Not at haway
    obtain ⟨p, hp, hid⟩ := haway
    cases hdirty : p.session.dirty with
    | false => exact .inl ((h.live p hp hid).2.2 hdirty)
    | true => exact .inr ⟨p, hp, hid, hdirty⟩

theorem Keeps.release (h : g.Keeps u m) : (g.release u).1.Keeps u m := by
  unfold PlayerRegistry.release
  cases hl : g.live? u with
  | none => exact h
  | some p =>
    obtain ⟨hp, hid⟩ := live?_eq_some hl
    obtain ⟨ht, hm, hclean⟩ := h.live p hp hid
    obtain ⟨g', hs⟩ := h.exists_save hm
    obtain ⟨hkeeps, hstored⟩ := h.save hid ht hm hs
    dsimp only
    rw [hs, mustSave, ht]
    split
    · exact hkeeps.drop hid hstored
    · -- without changes nothing is written, but then the store has the selection already
      rename_i hdirty
      exact h.drop hid (hclean (by simpa using hdirty))

theorem Keeps.removeTemporary (h : g.Keeps u m) : g.removeTemporary.Keeps u m := by
  refine h.same (sameFor_dropAll fun p hp hid => ?_)
  obtain ⟨hmem, htemporary⟩ := List.mem_filter.1 hp
  exact absurd ((h.live p hmem hid).1.symm.trans htemporary) (by decide)

/-- **A registry that takes over the store of a closed one** keeps what that one kept. -/
theorem Keeps.restart (h : g.Keeps u m) (drawing : Bool) :
    (PlayerRegistry.new g.config drawing g.close.store g.close.canvas).Keeps u m := by
  obtain ⟨hkeeps, hstored⟩ := h.flush
  have hstore : g.close.store = g.flush.1.store := store_dropAll _ _
  have hreloaded : (PlayerRegistry.new g.config drawing g.close.store g.close.canvas).reloaded u =
      g.flush.1.reloaded u := by
    unfold reloaded load?
    rw [config_flush, ← hstore]
    rfl
  exact
    { storable := h.storable
      bounded := h.bounded
      accepting := (congrArg Store.refusing hstore).trans hkeeps.accepting
      wand := h.wand
      defaults := h.defaults
      live := fun p hp => nomatch hp
      away := fun _ => hreloaded.trans hstored }

/-- A removed player starts anew. -/
theorem Keeps.remove (h : g.Keeps u m) :
    (g.remove u).Keeps u (Session.new g.config.player : Session R).selection := by
  have hconfig : (g.remove u).config = g.config := by
    unfold PlayerRegistry.remove
    cases g.live? u <;> rfl
  have hrefusing : (g.remove u).store.refusing = g.store.refusing := by
    unfold PlayerRegistry.remove
    cases g.live? u <;> rfl
  have hgone : (g.remove u).load? u = none := by
    have hget : (g.remove u).store.get? u.text = none := Store.get?_erase_self _ _
    unfold load?
    rw [hget]
    rfl
  have hreloaded : (g.remove u).reloaded u =
      (Session.new g.config.player : Session R).selection := by
    unfold reloaded
    rw [hgone, hconfig]
    rfl
  exact
    { storable := Session.new_storable h.wand
      bounded := h.defaults
      accepting := hrefusing.trans h.accepting
      wand := hconfig ▸ h.wand
      defaults := hconfig ▸ h.defaults
      live := fun p hp hid => by
        unfold PlayerRegistry.remove at hp
        cases hl : g.live? u with
        | none =>
          rw [hl] at hp
          exact absurd hid (live?_eq_none hl p hp)
        | some q =>
          rw [hl] at hp
          exact absurd (hid.trans (live?_eq_some hl).2.symm) (mem_drop.1 hp).2
      away := fun _ => hreloaded }

/-- The stage of a player at work, created if need be. -/
def stage (g : PlayerRegistry R) (id : PlayerId) (temporary : Bool) : Stage R :=
  ⟨(g.obtain id temporary).2.session, (g.obtain id temporary).1.canvas⟩

/-- A player at work after a click, created if need be. -/
def clicked (g : PlayerRegistry R) (id : PlayerId) (temporary : Bool) (c : Click) : Player R :=
  (c.handle (g.obtain id temporary).2 (g.obtain id temporary).1.canvas).2.1

theorem Keeps.modify (h : g.Keeps u m) {op : SessionOp R} (hop : op.Takes (g.stage u false))
    (hrange : (op.apply (g.stage u false)).session.selection.InRange)
    (hbounded : (op.apply (g.stage u false)).session.config.Bounded) :
    (g.modify u false fun st => (op.apply st, ())).1.Keeps u
      (op.apply (g.stage u false)).session.selection := by
  obtain ⟨hkeeps, hmem⟩ := h.obtain
  have hid := g.obtain_id u false
  have ht := (hkeeps.live _ hmem hid).1
  exact hkeeps.apply hmem hid hop hrange hbounded
    (q := { (g.obtain u false).2 with session := (op.apply (g.stage u false)).session }) hid ht rfl
    (op.apply (g.stage u false)).canvas

theorem Keeps.click (h : g.Keeps u m) {c : Click}
    (hrange : (g.clicked u false c).session.selection.InRange)
    (hbounded : (g.clicked u false c).session.config.Bounded) :
    (g.click u false c).1.Keeps u (g.clicked u false c).session.selection := by
  obtain ⟨hkeeps, hmem⟩ := h.obtain
  exact hkeeps.handle hmem (g.obtain_id u false) c hrange hbounded
    (c.handle (g.obtain u false).2 (g.obtain u false).1.canvas).2.2

end PlayerRegistry

/-! ## Courses of operations -/

/-- The operations of a registry. The last one closes it and starts another one over its store. -/
inductive RegistryOp (R : Type) where
  | obtain (id : PlayerId) (temporary : Bool)
  | find (id : PlayerId) (temporary : Bool)
  | change (id : PlayerId) (temporary : Bool) (op : SessionOp R)
  | click (id : PlayerId) (temporary : Bool) (c : Click)
  | release (id : PlayerId)
  | remove (id : PlayerId)
  | removeTemporary
  | flush
  | restart (drawing : Bool)

namespace RegistryOp

variable {R : Type} [StoredRadius R]

/-- The registry after an operation. -/
def run : RegistryOp R → PlayerRegistry R → PlayerRegistry R
  | .obtain id temporary, g => (g.obtain id temporary).1
  | .find id temporary, g => (g.find? id temporary).1
  | .change id temporary op, g => (g.modify id temporary fun st => (op.apply st, ())).1
  | .click id temporary c, g => (g.click id temporary c).1
  | .release id, g => (g.release id).1
  | .remove id, g => g.remove id
  | .removeTemporary, g => g.removeTemporary
  | .flush, g => g.flush.1
  | .restart drawing, g => .new g.config drawing g.close.store g.close.canvas

/-- The selection that an operation leaves a player with who had `m`: changes and clicks of the
player leave what they make of the session, and a removal leaves that of a new one. -/
def leaves (u : PlayerId) (g : PlayerRegistry R) (m : Selection R) : RegistryOp R → Selection R
  | .change id temporary op =>
    if id = u then (op.apply (g.stage id temporary)).session.selection else m
  | .click id temporary c =>
    if id = u then (g.clicked id temporary c).session.selection else m
  | .remove id => if id = u then (Session.new g.config.player : Session R).selection else m
  | _ => m

/-- What is asked of the operations on a player: it is not a temporary one, and the texts and
numbers of its session stay in range. Other players may do anything. -/
def Allowed (u : PlayerId) (g : PlayerRegistry R) (m : Selection R) (op : RegistryOp R) : Prop :=
  (op.leaves u g m).InRange ∧ (op.leaves u g m).config.Bounded ∧ match op with
    | .obtain id temporary | .click id temporary _ => id = u → temporary = false
    | .change id temporary op => id = u → temporary = false ∧ op.Takes (g.stage id temporary)
    | _ => True

variable {g : PlayerRegistry R} {u : PlayerId} {m : Selection R}

/-- **One operation keeps the selection that it leaves.** -/
theorem keeps {op : RegistryOp R} (h : g.Keeps u m) (hop : op.Allowed u g m) :
    (op.run g).Keeps u (op.leaves u g m) := by
  obtain ⟨hrange, hbounded, hallowed⟩ := hop
  cases op with
  | obtain id temporary =>
    by_cases hid : id = u
    · subst hid
      obtain rfl := hallowed rfl
      exact h.obtain.1
    · exact h.same (PlayerRegistry.sameFor_obtain hid temporary)
  | find id temporary => exact h.same (PlayerRegistry.sameFor_find u id temporary)
  | change id temporary op =>
    by_cases hid : id = u
    · subst hid
      obtain ⟨rfl, htakes⟩ := hallowed rfl
      rw [leaves, if_pos rfl] at hrange hbounded ⊢
      exact h.modify htakes hrange hbounded
    · rw [leaves, if_neg hid]
      exact h.same (PlayerRegistry.sameFor_modify hid temporary _)
  | click id temporary c =>
    by_cases hid : id = u
    · subst hid
      obtain rfl := hallowed rfl
      rw [leaves, if_pos rfl] at hrange hbounded ⊢
      exact h.click hrange hbounded
    · rw [leaves, if_neg hid]
      exact h.same (PlayerRegistry.sameFor_click hid temporary c)
  | release id =>
    by_cases hid : id = u
    · exact hid ▸ h.release
    · exact h.same (PlayerRegistry.sameFor_release hid)
  | remove id =>
    by_cases hid : id = u
    · rw [leaves, if_pos hid, hid]
      exact h.remove
    · rw [leaves, if_neg hid]
      exact h.same (PlayerRegistry.sameFor_remove hid)
  | removeTemporary => exact h.removeTemporary
  | flush => exact h.flush.1
  | restart drawing => exact h.restart drawing

end RegistryOp

namespace PlayerRegistry

variable {R : Type} [StoredRadius R]

/-- The registries that a course of operations leads to, each with the selection that a player was
last left with. -/
inductive Course (u : PlayerId) (g₀ : PlayerRegistry R) : PlayerRegistry R → Selection R → Prop
  | start : Course u g₀ g₀ (Session.new g₀.config.player : Session R).selection
  | step {g : PlayerRegistry R} {m : Selection R} (op : RegistryOp R) : Course u g₀ g m →
      op.Allowed u g m → Course u g₀ (op.run g) (op.leaves u g m)

theorem Course.keeps {u : PlayerId} {g₀ g : PlayerRegistry R} {m : Selection R}
    (h : Course u g₀ g m) (h₀ : g₀.Keeps u (Session.new g₀.config.player : Session R).selection) :
    g.Keeps u m := by
  induction h with
  | start => exact h₀
  | step op _ hop ih => exact RegistryOp.keeps ih hop

/-- **The registry loses no update.** It starts without players at work over a store that accepts
all writes and has nothing for the player that can be read. Then over every course of operations,
the player has the selection that it was last left with, whenever it is wanted. So has the store, if
there is nothing to save. -/
theorem no_update_lost {u : PlayerId} {g₀ g : PlayerRegistry R} {m : Selection R}
    (hplayers : g₀.players = []) (haccepting : g₀.store.refusing = false)
    (hunread : g₀.load? u = none) (hwand : ShortText g₀.config.player.wand)
    (hbounded : g₀.config.player.Bounded) (h : Course u g₀ g m) :
    (g.obtain u false).2.session.selection = m ∧
      ∀ p, g.live? u = some p → p.session.dirty = false →
        ((g.load? u).getD (.new g.config.player)).selection = p.session.selection := by
  have h₀ : g₀.Keeps u (Session.new g₀.config.player : Session R).selection :=
    { storable := Session.new_storable hwand
      bounded := hbounded
      accepting := haccepting
      wand := hwand
      defaults := hbounded
      live := fun p hp => by
        rw [hplayers] at hp
        exact nomatch hp
      away := fun _ => by
        unfold reloaded
        rw [hunread]
        rfl }
  have hkeeps := h.keeps h₀
  constructor
  · obtain ⟨hobtained, hmem⟩ := hkeeps.obtain
    exact (hobtained.live _ hmem (g.obtain_id u false)).2.1
  · intro p hp hdirty
    obtain ⟨hmem, hid⟩ := live?_eq_some hp
    obtain ⟨-, hm, hclean⟩ := hkeeps.live p hmem hid
    exact (hclean hdirty).trans hm.symm

/-- One player picks a position and leaves, another one comes, and the registry is started anew. -/
def revisited : PlayerRegistry Float :=
  (RegistryOp.restart false).run ((RegistryOp.change ⟨2⟩ false (.setKind .sphere)).run
    ((RegistryOp.release ⟨1⟩).run ((RegistryOp.change ⟨1⟩ false (.setMain ⟨0, ⟨1, 2, 3⟩⟩)).run
      (.new .standard true .empty .blank))))

theorem no_update_lost_revisited : (revisited.obtain ⟨1⟩ false).2.session.selection =
    ⟨.standard, some ⟨0, ⟨1, 2, 3⟩⟩, none, some .cuboid,
      some ⟨0, .cuboid (.ofCorners ⟨1, 2, 3⟩ ⟨1, 2, 3⟩)⟩⟩ := by
  have hwand : ShortText PlayerConfig.standard.wand := by decide +kernel
  have hbounded : PlayerConfig.standard.Bounded := ⟨by decide, by decide⟩
  have hp : (⟨1, 2, 3⟩ : Pos).InWorld := by constructor <;> unfold Narrow <;> decide
  have hdim : Narrow 0 := by unfold Narrow; decide
  have hrange := Selection.corners_inRange (R := Float) hwand hdim hp hp (v := none)
    fun _ h => nomatch h
  have hcourse : Course ⟨1⟩ (.new .standard true .empty .blank) revisited
      ⟨.standard, some ⟨0, ⟨1, 2, 3⟩⟩, none, some .cuboid,
        some ⟨0, .cuboid (.ofCorners ⟨1, 2, 3⟩ ⟨1, 2, 3⟩)⟩⟩ := by
    refine .step (.restart false) (.step (.change ⟨2⟩ false (.setKind .sphere))
      (.step (.release ⟨1⟩) (.step (.change ⟨1⟩ false (.setMain ⟨0, ⟨1, 2, 3⟩⟩)) .start
        ?_) ?_) ?_) ?_
    · exact ⟨hrange, hbounded, fun _ => ⟨rfl, trivial⟩⟩
    · exact ⟨hrange, hbounded, trivial⟩
    · exact ⟨hrange, hbounded, fun h => absurd h (by decide)⟩
    · exact ⟨hrange, hbounded, trivial⟩
  exact (no_update_lost rfl rfl rfl hwand hbounded hcourse).1

end PlayerRegistry

end VoxelEdit
