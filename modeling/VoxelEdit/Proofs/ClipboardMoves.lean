import VoxelEdit.Proofs.PasteView
import VoxelEdit.Proofs.StoredClipboard

/-!
# Clipboards move rigidly

Every clipboard that the library makes is solid (`Made.solid`), and has content if it is in use
only (`Made.bare`). A move of a clipboard, a rotation
or a mirror, is a list of steps, and a step turns or mirrors directions and blocks alike.

* `Carries`: one clipboard shows at each displacement from the player, moved by a map of
  directions, what another shows there, with its blocks changed. `carries_step` has it for a
  step, `carries_moves` for any list of moves.
* `moves_are_rigid`: **after any moves a paste puts each cell where the moved displacement from
  the player tells, and changes nothing else.**
-/

namespace VoxelEdit

namespace Clipboard

variable {c c' : Clipboard}

/-- The clipboards that the library makes. -/
inductive Made : Clipboard → Prop
  | new (size : Pos) : Made (new size)
  | store {c : Clipboard} (p : Pos) (e : Entry) : Made c → Made (c.store p e)
  | clear {c : Clipboard} : Made c → Made c.clear
  | capture {R : Type} [Radius R] (r : Region R) (w : World) (player : Pos) :
      Made (capture r w player)
  | rotate {c c' : Clipboard} (angles : Pos) : Made c → c.rotate? angles = some c' → Made c'
  | mirror {c : Clipboard} (axis : Axis) : Made c → Made (c.mirror axis)
  | decode {c : Clipboard} (bs : List UInt8) : decode? bs = some (.ok c) → Made c

theorem new_solid (size : Pos) : (new size).Solid := by
  have hp := Pos.proper_sup_one size
  refine ⟨hp, ?_⟩
  have h := hp.cellCount_pos.le
  simp only [new, Array.size_replicate]
  exact Int.toNat_of_nonneg h

/-- An entry gets the number that the index knows, or else it comes to the end of the palette. -/
theorem intern_cases (c : Clipboard) (e : Entry) :
    (∃ id, e.entity = none ∧ c.index[e.key]? = some id ∧ c.intern e = (id, c)) ∨
      c.intern e = (c.palette.size, { c with
        palette := c.palette.push e
        index := c.index.enter e c.palette.size }) := by
  unfold intern
  split
  · rename_i id hid
    split at hid
    · exact nomatch hid
    · rename_i hnone
      exact .inl ⟨id, by simpa using hnone, hid, rfl⟩
  · exact .inr rfl

/-- A clipboard after a cell was filled. -/
theorem put_eq (c : Clipboard) (p : Pos) (e : Entry) :
    c.put p e = { c with
      palette := (c.intern e).2.palette
      index := (c.intern e).2.index
      cells := c.cells.setIfInBounds (c.localBox.indexOf p).toNat (some (c.intern e).1)
      used := true } := by
  rcases c.intern_cases e with ⟨_, _, _, heq⟩ | heq <;> rw [put, heq]

/-- The first entry of a palette. -/
theorem intern_new (size : Pos) (e : Entry) :
    (new size).intern e =
      (0, { new size with palette := #[e], index := PaletteIndex.enter ∅ e 0 }) := by
  simp [intern, new]

theorem Solid.put (hc : c.Solid) (p : Pos) (e : Entry) : (c.put p e).Solid := by
  rw [put_eq]
  refine ⟨hc.proper, ?_⟩
  simp only [Array.size_setIfInBounds]
  exact hc.cells

theorem Solid.store (hc : c.Solid) (p : Pos) (e : Entry) : (c.store p e).Solid := by
  unfold Clipboard.store
  split
  · exact hc.put p e
  · exact hc

theorem capture_solid {R : Type} [Radius R] (r : Region R) (w : World) (player : Pos) :
    (capture r w player).Solid := by
  have hfold := List.foldlRecOn (motive := Solid) r.positions
    (fun c p => c.store (p - r.box.min) (w.get ⟨r.dim, p⟩)) (new_solid r.box.dims)
    fun c hc p _ => hc.store _ _
  exact ⟨hfold.proper, hfold.cells⟩

theorem decode_solid {bs : List UInt8} (h : decode? bs = some (.ok c)) : c.Solid := by
  obtain ⟨hp, hcount, -⟩ := decode?_eq_ofParts h
  exact ⟨hp, hcount⟩

/-! ## Steps -/

/-- A quarter turn about an axis, or a mirror along one. -/
inductive Step where
  | turn (axis : Axis)
  | mirror (axis : Axis)

namespace Step

/-- What a step does to a clipboard. -/
def act (c : Clipboard) : Step → Clipboard
  | turn axis => c.turn axis
  | mirror axis => c.mirror axis

/-- Where a step sends a position of a buffer of a size. -/
def place (size p : Pos) : Step → Pos
  | turn axis => p.turn size axis
  | mirror axis => p.mirror size axis

/-- Where a step takes a position from. -/
def source (size p : Pos) : Step → Pos
  | turn axis => p.turnBack size axis
  | mirror axis => p.mirror size axis

/-- The size of a buffer after a step. -/
def resize (size : Pos) : Step → Pos
  | turn axis => size.turnSize axis
  | mirror _ => size

/-- What a step does to a direction. -/
def vector (v : Pos) : Step → Pos
  | turn axis => v.turnVector axis
  | mirror axis => v.mirrorVector axis

/-- What a step does to a block. -/
def block (b : Block) : Step → Block
  | turn axis => b.turn axis
  | mirror axis => b.mirror axis

theorem layout (size : Pos) (s : Step) :
    Layout size (s.resize size) (fun p => s.place size p) fun p => s.source size p := by
  cases s with
  | turn axis => exact turn_layout size axis
  | mirror axis => exact mirror_layout size axis

theorem place_add (size p d : Pos) (s : Step) :
    s.place size (p + d) = s.place size p + s.vector d := by
  cases s with
  | turn axis => exact p.turn_add d size axis
  | mirror axis => exact p.mirror_add d size axis

/-- A step lays the cells out anew and changes the blocks. -/
theorem act_eq (c : Clipboard) (s : Step) :
    s.act c = c.relocated (s.resize c.size) (fun p => s.place c.size p)
      (fun p => s.source c.size p) fun b => s.block b := by
  cases s with
  | turn axis => exact turn_eq c axis
  | mirror axis => exact mirror_eq c axis

end Step

/-- A rotation by angles about the three axes, or a mirror along an axis. -/
inductive Move where
  | rotate (angles : Pos)
  | mirror (axis : Axis)

namespace Move

/-- What a move does to a clipboard, unless it is refused. -/
def act? (c : Clipboard) : Move → Option Clipboard
  | rotate angles => c.rotate? angles
  | mirror axis => some (c.mirror axis)

/-- The steps of a move: the quarter turns about each axis in order, or the mirror. -/
def steps : Move → List Step
  | rotate angles => Axis.all.flatMap fun axis =>
      List.replicate (angles.get axis / 90 % 4).toNat (.turn axis)
  | mirror axis => [.mirror axis]

/-- What moves do to a direction, one after the other. -/
def vector (moves : List Move) (v : Pos) : Pos := (moves.flatMap steps).foldl Step.vector v

/-- What moves do to a block, one after the other. -/
def block (moves : List Move) (b : Block) : Block := (moves.flatMap steps).foldl Step.block b

theorem turns_eq (n : Nat) (c : Clipboard) (axis : Axis) :
    c.turns n axis = (List.replicate n (Step.turn axis)).foldl Step.act c := by
  induction n generalizing c with
  | zero => rfl
  | succ n ih => rw [turns, ih, List.replicate_succ, List.foldl_cons]; rfl

/-- A move that is not refused is the list of its steps. -/
theorem act?_eq (m : Move) (h : m.act? c = some c') : c' = m.steps.foldl Step.act c := by
  cases m with
  | mirror axis => exact (Option.some.inj h).symm
  | rotate angles =>
    unfold act? rotate? at h
    simp only at h
    split at h
    · rw [← Option.some.inj h]
      simp only [Axis.all, steps, List.foldl_cons, List.foldl_nil, turns_eq, List.flatMap_cons,
        List.flatMap_nil, List.append_nil, List.foldl_append]
    · exact absurd h (by simp)

end Move

/-- Moves of which none is refused come down to one list of steps. -/
theorem moves_eq {moves : List Move} (h : moves.foldlM (fun c m => m.act? c) c = some c') :
    c' = (moves.flatMap Move.steps).foldl Step.act c := by
  induction moves generalizing c with
  | nil => exact (Option.some.inj h).symm
  | cons m moves ih =>
    rw [List.foldlM_cons] at h
    obtain ⟨c₁, h₁, h₂⟩ := Option.bind_eq_some_iff.1 h
    rw [List.flatMap_cons, List.foldl_append, ← m.act?_eq h₁]
    exact ih h₂

theorem Step.solid (hc : c.Solid) (s : Step) : (s.act c).Solid := by
  rw [act_eq]
  exact hc.relocated (s.layout c.size)

theorem steps_solid (hc : c.Solid) (l : List Step) : (l.foldl Step.act c).Solid :=
  List.foldlRecOn l Step.act hc fun _ hc s _ => s.solid hc

/-- **Every clipboard of the library is solid.** -/
theorem Made.solid (hc : c.Made) : c.Solid := by
  induction hc with
  | new size => exact new_solid size
  | store p e _ ih => exact ih.store p e
  | clear _ _ => exact new_solid _
  | capture r w player => exact capture_solid r w player
  | rotate angles _ h ih =>
    rw [Move.act?_eq (.rotate angles) h]
    exact steps_solid ih _
  | mirror axis _ ih => exact Step.solid ih (.mirror axis)
  | decode bs h => exact decode_solid h

/-! ## What moves carry where -/

/-- `c'` shows at a displacement from its player that `M` has moved what `c` shows at the
displacement itself, with its blocks changed by `f`, and has as many cells, filled and in all. -/
structure Carries (M : Pos → Pos) (f : Block → Block) (c c' : Clipboard) : Prop where
  solid : c'.Solid
  get? : ∀ d, c'.get? (c'.relative + M d) = (c.get? (c.relative + d)).map (mapBlocks f)
  count : c'.count = c.count
  volume : c'.cells.size = c.cells.size
  used : c'.used = c.used

theorem mapBlocks_mapBlocks (f g : Block → Block) (e : Entry) :
    mapBlocks g (mapBlocks f e) = mapBlocks (fun b => g (f b)) e := by
  simp [mapBlocks, Function.comp_def]

theorem Carries.refl (hc : c.Solid) : Carries (fun v => v) (fun b => b) c c := by
  have hid : mapBlocks (fun b => b) = fun e => e := by
    funext e
    simp [mapBlocks]
  exact ⟨hc, fun d => by rw [hid, Option.map_id'], rfl, rfl, rfl⟩

theorem Carries.trans {M N : Pos → Pos} {f g : Block → Block} {c'' : Clipboard}
    (h : Carries M f c c') (h' : Carries N g c' c'') :
    Carries (fun v => N (M v)) (fun b => g (f b)) c c'' := by
  refine ⟨h'.solid, ?_, h'.count.trans h.count, h'.volume.trans h.volume, h'.used.trans h.used⟩
  intro d
  rw [h'.get?, h.get?, Option.map_map]
  congr 1
  funext e
  exact mapBlocks_mapBlocks f g e

theorem Carries.localVolume {M : Pos → Pos} {f : Block → Block} (h : Carries M f c c')
    (hc : c.Solid) : c'.localBox.volume = c.localBox.volume := by
  have h1 : c'.localBox.volume = c'.size.cellCount := h.solid.proper.volume_eq
  have h2 : c.localBox.volume = c.size.cellCount := hc.proper.volume_eq
  rw [h1, h2, ← h.solid.cells, ← hc.cells, h.volume]

/-- A layout that acts on differences alone carries the clipboard. -/
theorem carries_relocated {size' : Pos} {place source M : Pos → Pos} {f : Block → Block}
    (hc : c.Solid) (hl : Layout c.size size' place source)
    (hM : ∀ p d, place (p + d) = place p + M d) :
    Carries M f c (c.relocated size' place source f) := by
  refine ⟨hc.relocated hl, ?_, count_relocated hc hl, ?_, rfl⟩
  · intro d
    rw [← get?_relocated hc hl, hM]
    rfl
  · simp [relocated, moveCells]

theorem carries_step (hc : c.Solid) (s : Step) :
    Carries (fun v => s.vector v) (fun b => s.block b) c (s.act c) := by
  rw [Step.act_eq]
  exact carries_relocated hc (s.layout c.size) fun p d => s.place_add c.size p d

theorem carries_steps (hc : c.Solid) (l : List Step) :
    Carries (fun v => l.foldl Step.vector v) (fun b => l.foldl Step.block b) c
      (l.foldl Step.act c) := by
  induction l generalizing c with
  | nil => exact .refl hc
  | cons s l ih => exact (carries_step hc s).trans (ih (s.solid hc))

/-- **Moves carry the clipboard**, as far as none of them is refused. -/
theorem carries_moves (hc : c.Solid) (moves : List Move)
    (h : moves.foldlM (fun c m => m.act? c) c = some c') :
    Carries (Move.vector moves) (Move.block moves) c c' := by
  rw [moves_eq h]
  exact carries_steps hc _

theorem vector_signed (moves : List Move) : SignedPermutation (Move.vector moves) := by
  unfold Move.vector
  induction moves.flatMap Move.steps with
  | nil => exact .id
  | cons s l ih =>
    have hs : SignedPermutation fun v => s.vector v := by
      cases s with
      | turn axis => exact .turnVector axis
      | mirror axis => exact .mirrorVector axis
    exact ih.comp hs

/-! ## Clipboards that are not in use -/

/-- Without content. -/
def Bare (c : Clipboard) : Prop := ∀ p, c.get? p = none

theorem bare_new (size : Pos) : (new size).Bare := by
  intro p
  rw [get?_eq]
  by_cases h : (new size).localBox.contains p = true
  · rw [if_pos h]
    unfold cell? new
    simp only [Array.getElem?_replicate]
    split <;> rfl
  · exact if_neg h

/-- What is moved has no content if nothing was there. -/
theorem Carries.bare {M : Pos → Pos} {f : Block → Block} (h : Carries M f c c')
    (hM : Function.Surjective M) (hc : c.Bare) : c'.Bare := by
  intro p
  obtain ⟨d, hd⟩ := hM (p - c'.relative)
  have hp : p = c'.relative + M d := by
    rw [hd]
    ext <;> simp
  rw [hp, h.get?, hc]
  rfl

/-- **A clipboard that is not in use has no content.** -/
theorem Made.bare (hc : c.Made) (hu : c.used = false) : c.Bare := by
  -- a move keeps the flag and the content
  have moved : ∀ {c c' : Clipboard} (m : Move), c.Made → m.act? c = some c' →
      (c.used = false → c.Bare) → c'.used = false → c'.Bare := by
    intro c c' m hc h ih hu
    have hcar : Carries (Move.vector [m]) (Move.block [m]) c c' :=
      carries_moves hc.solid [m] (by simp [h])
    exact hcar.bare (vector_signed [m]).bijective.2 (ih (hcar.used ▸ hu))
  induction hc with
  | new size => exact bare_new size
  | clear _ _ => exact bare_new _
  | @store c p e _ ih =>
    by_cases hp : c.localBox.contains p = true
    · simp [Clipboard.store, hp, put] at hu
    · simp only [Clipboard.store, hp] at hu ⊢
      exact ih hu
  | capture r w player => exact nomatch hu
  | rotate angles hc h ih => exact moved (.rotate angles) hc h ih hu
  | mirror axis hc ih => exact moved (.mirror axis) hc rfl ih hu
  | decode bs h => exact absurd hu (by simp [(decode?_eq_ofParts h).2.2.2.2])

end Clipboard

/-- What a paste shows, refused or not: a clipboard that is not in use has nothing to put. -/
theorem Workspace.get_paste_of_bare {R : Type} [Radius R] {c : Clipboard} (hs : c.Solid)
    (hb : c.used = false → c.Bare) (tools : EditTools) {ws : Workspace R} (site : Site)
    (select : Bool) (hw : ws.world.Free) (hm : ws.session.mask = none)
    (hcb : ws.session.clipboard = c) (t : Site) :
    (ws.paste tools site ⟨false, false, select, false⟩).1.world.get t = if t.dim = site.dim then
        ((c.get? (t.pos - (site.pos - c.relative))).map Entry.kept).getD (ws.world.get t)
      else ws.world.get t := by
  subst hcb
  cases hu : ws.session.clipboard.used with
  | true =>
    rw [ws.get_paste tools site hw hm hu rfl hs, Clipboard.taken?_false]
    rfl
  | false =>
    have hrefused : (ws.paste tools site ⟨false, false, select, false⟩).1.world = ws.world := by
      simp only [paste, hu]
      rfl
    rw [hrefused, hb hu]
    simp

/-- **Moves are rigid.** A quarter turn and a mirror are bijections of what lies inside and take
the content along, its blocks turned or mirrored. After any moves of which none is refused, no
cell is lost or merged, and a paste at any site puts what was at a displacement from the player
where the composed directions take that displacement, and changes nothing else. -/
theorem moves_are_rigid {c : Clipboard} (hc : c.Made) :
    (∀ axis, Set.BijOn (fun p => p.turn c.size axis) c.inside (c.turn axis).inside ∧
      ∀ p ∈ c.inside, (c.turn axis).get? (p.turn c.size axis) =
        (c.get? p).map (Clipboard.mapBlocks fun b => b.turn axis)) ∧
    (∀ axis, Set.BijOn (fun p => p.mirror c.size axis) c.inside (c.mirror axis).inside ∧
      ∀ p ∈ c.inside, (c.mirror axis).get? (p.mirror c.size axis) =
        (c.get? p).map (Clipboard.mapBlocks fun b => b.mirror axis)) ∧
    ∀ (moves : List Clipboard.Move) (c' : Clipboard),
      moves.foldlM (fun c m => m.act? c) c = some c' →
      SignedPermutation (Clipboard.Move.vector moves) ∧
      Function.Bijective (Clipboard.Move.vector moves) ∧
      c'.count = c.count ∧ c'.localBox.volume = c.localBox.volume ∧
      ∀ (R : Type) [Radius R] (tools : EditTools) (ws : Workspace R) (site : Site) (select : Bool),
        ws.world.Free → ws.session.mask = none → ws.session.clipboard = c' →
        let after := (ws.paste tools site ⟨false, false, select, false⟩).1.world
        (∀ d, after.get ⟨site.dim, site.pos + Clipboard.Move.vector moves d⟩ =
          ((c.get? (c.relative + d)).map fun e =>
            (Clipboard.mapBlocks (Clipboard.Move.block moves) e).kept).getD
              (ws.world.get ⟨site.dim, site.pos + Clipboard.Move.vector moves d⟩)) ∧
        ∀ t : Site, t.dim ≠ site.dim → after.get t = ws.world.get t := by
  have hs := hc.solid
  refine ⟨?_, ?_, ?_⟩
  · intro axis
    have hl := Clipboard.turn_layout c.size axis
    refine ⟨hl.bijOn hs.proper, fun p _ => ?_⟩
    rw [Clipboard.turn_eq]
    exact Clipboard.get?_relocated hs hl p
  · intro axis
    have hl := Clipboard.mirror_layout c.size axis
    refine ⟨hl.bijOn hs.proper, fun p _ => ?_⟩
    rw [Clipboard.mirror_eq]
    exact Clipboard.get?_relocated hs hl p
  · intro moves c' h
    have hcar := Clipboard.carries_moves hs moves h
    have hM := Clipboard.vector_signed moves
    refine ⟨hM, hM.bijective, hcar.count, hcar.localVolume hs, ?_⟩
    intro R _ tools ws site select hw hm hcb after
    have hbare : c'.used = false → c'.Bare := fun hu =>
      hcar.bare hM.bijective.2 (hc.bare (hcar.used ▸ hu))
    have hget := Workspace.get_paste_of_bare hcar.solid hbare tools site select hw hm hcb
    refine ⟨?_, ?_⟩
    · intro d
      have hp : site.pos + Clipboard.Move.vector moves d - (site.pos - c'.relative) =
          c'.relative + Clipboard.Move.vector moves d := by
        ext <;> simp <;> omega
      rw [hget _, if_pos rfl, hp, hcar.get?, Option.map_map]
      rfl
    · intro t ht
      rw [hget t, if_neg ht]

/-- Stairs in a buffer of two by one by three are turned about two axes, mirrored and pasted. -/
theorem moves_are_rigid_stairs :
    let stairs : Block := ⟨"minecraft:oak_stairs", 0, [("facing", "north")]⟩
    let c := (Clipboard.new ⟨2, 1, 3⟩).store ⟨1, 0, 2⟩ (.ofBlock stairs)
    let c' := (((c.turn .x).turn .y).turn .y).mirror .x
    let moves : List Clipboard.Move := [.rotate ⟨90, 180, 0⟩, .mirror .x]
    let tools : EditTools := ⟨.withSeed .flat 0, .standard⟩
    let fresh : Session Float := .new .standard
    let ws : Workspace Float :=
      { session := { fresh with clipboard := c' }
        canvas := .blank
        world := .empty
        sampling := ⟨.empty, .ofList []⟩ }
    c.Made ∧ moves.foldlM (fun c m => m.act? c) c = some c' ∧ ws.world.Free ∧
      ws.session.mask = none ∧ ws.session.clipboard = c' ∧
      (ws.paste tools ⟨0, ⟨10, 64, 10⟩⟩ ⟨false, false, false, false⟩).1.world.get
        ⟨0, ⟨11, 66, 10⟩⟩ = .ofBlock (stairs.set "facing" "down") := by
  intro stairs c c' moves tools fresh ws
  have hc : c.Made := .store _ _ (.new _)
  have hmoves : moves.foldlM (fun c m => m.act? c) c = some c' := rfl
  have hw : ws.world.Free := World.Made.empty.free
  refine ⟨hc, hmoves, hw, rfl, rfl, ?_⟩
  obtain ⟨-, -, -, -, hget⟩ := (moves_are_rigid hc).2.2 moves c' hmoves
  have hat := (hget Float tools ws ⟨0, ⟨10, 64, 10⟩⟩ false hw rfl rfl).1 ⟨1, 0, 2⟩
  have hsource : c.get? (c.relative + ⟨1, 0, 2⟩) = some (.ofBlock stairs) := by
    have hstore : c = { Clipboard.new ⟨2, 1, 3⟩ with
        palette := #[.ofBlock stairs]
        cells := #[none, none, none, none, none, some 0]
        index := PaletteIndex.enter ∅ (.ofBlock stairs) 0
        used := true } := by
      simp only [c, Clipboard.store, Clipboard.put, Clipboard.intern_new]
      rfl
    rw [hstore]
    rfl
  rw [hsource] at hat
  exact hat

end VoxelEdit
