import VoxelEdit.Proofs.DoubleRadius
import VoxelEdit.Proofs.PasteView
import VoxelEdit.Proofs.Timeline

/-!
# What an edit leaves to redo

A history has a limit, which settings can change at any moment, also while there is something to
redo.

* `Workspace.Move`: the calls of an edit session and the two ways to change the limit.
  `Workspace.moveAll_limit`: the limit that holds after any moves is the one that was set last.
* `Workspace.edit_empties_redo_iff`: **an edit that writes something leaves nothing to redo exactly
  if the limit is not zero or there was nothing before.** Under limit zero it is not recorded, and
  then the stack of what to redo stays.
* `Workspace.redo_after_unrecorded_edit`: under limit zero a redo puts back what was undone before
  the latest edit.
-/

namespace VoxelEdit

/-- An edit of the world, as opposed to a copy and to undo and redo. -/
def Call.edits : Call → Bool
  | .fill _ | .replace _ _ | .cut _ | .paste _ _ => true
  | .copy _ | .undo | .redo => false

namespace History

/-- What can be redone after an edit was recorded. -/
theorem record_redos (h : History) {s : Snapshot} (hs : s.blocks.isEmpty = false) :
    (h.record s).redos = if h.limit = 0 then h.redos else [] := by
  unfold record
  rw [hs, Bool.false_or]
  by_cases hlimit : h.limit = 0
  · rw [if_pos (decide_eq_true hlimit), if_pos hlimit]
  · rw [if_neg (by simpa using hlimit), if_neg hlimit]

@[simp]
theorem record_limit (h : History) (s : Snapshot) : (h.record s).limit = h.limit := by
  unfold record
  split <;> rfl

end History

namespace Workspace

/-- A call, or a change of the limit of the history: its own, or that of all settings. -/
inductive Move where
  | call (c : Call)
  | setLimit (limit : Nat)
  | setConfig (config : PlayerConfig)

/-- The limit after a move. -/
def Move.limit (limit : Nat) : Move → Nat
  | .call _ => limit
  | .setLimit limit => limit
  | .setConfig config => config.historyLength

/-- The limit that was set last. -/
def lastLimit (limit : Nat) (moves : List Move) : Nat := moves.foldl Move.limit limit

/-! ## Single edits -/

section

variable {R : Type}

theorem Edited.limit {ws : Workspace R} {r : Workspace R × Except EditError Nat}
    (h : ws.Edited r) : r.1.session.history.limit = ws.session.history.limit := by
  cases h with
  | refused ws' e hw hh => rw [hh]
  | done ws' n dim plan mode hw hh => rw [hh, History.record_limit]

theorem undo_limit (ws : Workspace R) :
    ws.undo.1.session.history.limit = ws.session.history.limit := by
  unfold undo restored History.undo?
  cases ws.session.history.undos <;> rfl

theorem redo_limit (ws : Workspace R) :
    ws.redo.1.session.history.limit = ws.session.history.limit := by
  unfold redo restored History.redo?
  cases ws.session.history.redos <;> rfl

/-- Redo fails, and changes nothing, exactly if there is nothing to redo. -/
theorem redo_idle_iff (ws : Workspace R) :
    ws.redo = (ws, .error .nothingToRedo) ↔ ws.session.history.redos = [] := by
  unfold redo restored History.redo?
  cases ws.session.history.redos with
  | nil => exact ⟨fun _ => rfl, fun _ => rfl⟩
  | cons s rest =>
    constructor
    · intro h
      exact nomatch congrArg Prod.snd h
    · intro h
      exact nomatch h

/-- **What can be redone after an edit that wrote something.** -/
theorem Edited.redos {ws : Workspace R} {r : Workspace R × Except EditError Nat} (h : ws.Edited r)
    (hwrote : ws.wrote r.1 = true) : r.1.session.history.redos =
      if ws.session.history.limit = 0 then ws.session.history.redos else [] := by
  have hmore : ws.world.writes < r.1.world.writes := of_decide_eq_true hwrote
  cases h with
  | refused ws' e hw hh =>
    rw [hw] at hmore
    exact absurd hmore (Nat.lt_irrefl _)
  | done ws' n dim plan mode hw hh =>
    rw [hh]
    refine History.record_redos _ ?_
    -- an empty plan writes nothing
    cases plan with
    | nil =>
      rw [hw] at hmore
      exact absurd hmore (Nat.lt_irrefl _)
    | cons x plan => rfl

end

/-! ## Runs -/

variable {R : Type} [Radius R] (tools : EditTools)

/-- The workspace after a move. -/
def move (ws : Workspace R) : Move → Workspace R
  | .call c => (ws.call tools c).1
  | .setLimit limit =>
    { ws with session := { ws.session with history := ws.session.history.setLimit limit } }
  | .setConfig config => { ws with session := ws.session.setConfig config }

/-- The workspace after moves, one after the other. -/
def moveAll (ws : Workspace R) (moves : List Move) : Workspace R := moves.foldl (move tools) ws

/-- No call changes the limit. -/
theorem call_limit (ws : Workspace R) (c : Call) :
    (ws.call tools c).1.session.history.limit = ws.session.history.limit := by
  cases c with
  | fill pattern => exact (ws.fill_edited tools pattern).limit
  | replace wanted pattern => exact (ws.replace_edited tools wanted pattern).limit
  | copy player => exact (ws.copy_edited player).limit
  | cut player => exact (ws.cut_edited player).limit
  | paste site options => exact (ws.paste_edited tools site options).limit
  | undo => exact ws.undo_limit
  | redo => exact ws.redo_limit

theorem move_limit (ws : Workspace R) (m : Move) :
    (ws.move tools m).session.history.limit = m.limit ws.session.history.limit := by
  cases m with
  | call c => exact ws.call_limit tools c
  | setLimit limit => rfl
  | setConfig config => rfl

/-- **After any moves the limit is the one that was set last.** -/
theorem moveAll_limit (ws : Workspace R) (moves : List Move) :
    (ws.moveAll tools moves).session.history.limit =
      lastLimit ws.session.history.limit moves := by
  induction moves generalizing ws with
  | nil => rfl
  | cons m moves ih =>
    have hstep := ih (ws.move tools m)
    rw [move_limit] at hstep
    exact hstep

variable {tools}

theorem call_edited (ws : Workspace R) {c : Call} (hc : c.edits = true) :
    ws.Edited (ws.call tools c) := by
  cases c with
  | fill pattern => exact ws.fill_edited tools pattern
  | replace wanted pattern => exact ws.replace_edited tools wanted pattern
  | cut player => exact ws.cut_edited player
  | paste site options => exact ws.paste_edited tools site options
  | copy player => exact nomatch hc
  | undo => exact nomatch hc
  | redo => exact nomatch hc

variable (tools)

/-- **When an edit leaves nothing to redo.** After any calls and changes of the limit, a fill,
replace, cut or paste that wrote something empties the stack of what to redo exactly if the limit
that was set last is not zero, or the stack was empty before; and then redo fails and changes
nothing. Under limit zero the stack stays as it was. -/
theorem edit_empties_redo_iff (ws : Workspace R) (moves : List Move) {c : Call}
    (hc : c.edits = true)
    (hwrote : (ws.moveAll tools moves).wrote ((ws.moveAll tools moves).call tools c).1 = true) :
    let before := ws.moveAll tools moves
    let after := (before.call tools c).1
    let limit := lastLimit ws.session.history.limit moves
    (after.redo = (after, .error .nothingToRedo) ↔ after.session.history.redos = []) ∧
      (after.session.history.redos = [] ↔ limit ≠ 0 ∨ before.session.history.redos = []) ∧
      (limit = 0 → after.session.history.redos = before.session.history.redos) := by
  intro before after limit
  have hlimit : before.session.history.limit = limit := ws.moveAll_limit tools moves
  have hredos : after.session.history.redos =
      if limit = 0 then before.session.history.redos else [] := by
    rw [← hlimit]
    exact (before.call_edited hc).redos hwrote
  refine ⟨after.redo_idle_iff, ?_, fun hzero => by rw [hredos, if_pos hzero]⟩
  rw [hredos]
  by_cases hzero : limit = 0
  · rw [if_pos hzero]
    exact ⟨.inr, fun h => h.resolve_left (not_not.2 hzero)⟩
  · rw [if_neg hzero]
    exact ⟨fun _ => .inl hzero, fun _ => rfl⟩

/-! ## A paste after a change of the limit -/

/-- What a world shows after a single write. -/
theorem get_writeOne {w : World} (hw : w.Free) (dim : Int) (p : Pos) (e : Entry) (mode : UpdateMode)
    (t : Site) : (w.writeAll dim [(p, e)] mode).1.get t = if t = ⟨dim, p⟩ then e.kept else w.get t := by
  rw [World.writeAll_cons hw]
  exact World.get_put _ _ _ _

/-- A paste that has no mask and selects nothing commits one plan. -/
theorem paste_commits {ws : Workspace R} (hm : ws.session.mask = none)
    (hu : ws.session.clipboard.used = true) (site : Site) :
    let plan := Plan.placed ws.session.clipboard false (ws.session.clipboard.anchor site.pos false)
    ws.paste tools site ⟨false, false, false, false⟩ =
      ((ws.commit site.dim plan).1, .ok (ws.commit site.dim plan).2) := by
  have hplan := Plan.ofClipboard_unmasked tools.functions ws.session.clipboard false
    (ws.session.clipboard.anchor site.pos false) ws.sampling
  unfold paste perform
  simp only [hm, hu, Bool.not_true, Bool.false_eq_true, if_false, hplan]

omit [Radius R] in
/-- What a redo does if there is something to redo. -/
theorem redo_restores {ws : Workspace R} {s : Snapshot} {rest : List Snapshot}
    (h : ws.session.history.redos = s :: rest) : ws.redo.2 = .ok s.size ∧
      ws.redo.1.world = (s.restore ws.world ws.session.mode).2 := by
  unfold redo restored History.redo?
  rw [h]
  exact ⟨rfl, rfl⟩

/-- A block of stone. -/
def stone : Entry := .ofBlock (.ofName "minecraft:stone")

/-- A session with a block of stone in its clipboard, over the empty world. -/
def withStone : Workspace Float :=
  let fresh : Session Float := .new .standard
  let clipboard : Clipboard :=
    { Clipboard.unit with palette := #[stone], cells := #[some 0], used := true }
  { session := { fresh with clipboard }
    canvas := .blank
    world := .empty
    sampling := ⟨.empty, .ofList []⟩ }

/-- The call that pastes at a position of the first dimension. -/
def pasteAt (p : Pos) : Call := .paste ⟨0, p⟩ ⟨false, false, false, false⟩

theorem call_pasteAt {ws : Workspace Float} (hm : ws.session.mask = none)
    (hc : ws.session.clipboard = withStone.session.clipboard) (p : Pos) :
    ws.call tools (pasteAt p) = ((ws.commit 0 [(p, stone)]).1, .ok (ws.commit 0 [(p, stone)]).2) := by
  have hlist : withStone.session.clipboard.toList = [(.zero, stone)] := rfl
  have hanchor : withStone.session.clipboard.anchor p false + .zero = p := by
    show p - Pos.zero + Pos.zero = p
    ext <;> simp
  have hplan : Plan.placed withStone.session.clipboard false
      (withStone.session.clipboard.anchor p false) = [(p, stone)] := by
    unfold Plan.placed
    rw [hlist]
    exact congrArg (fun q => [(q, stone)]) hanchor
  have hpaste := paste_commits tools hm (by rw [hc]; rfl) ⟨0, p⟩
  rw [hc, hplan] at hpaste
  exact hpaste

/-- Stone is pasted, that is undone, and the settings change the limit. -/
def stoneMoves (limit : Nat) : List Move :=
  [.call (pasteAt .zero), .call .undo,
    .setConfig { PlayerConfig.standard with historyLength := limit }]

/-- What matters of a workspace in which one block of stone can be put back at the origin. -/
structure StoneToRedo (limit : Nat) (ws : Workspace Float) : Prop where
  mask : ws.session.mask = none
  clipboard : ws.session.clipboard = withStone.session.clipboard
  redos : ws.session.history.redos = [⟨0, [(.zero, stone)]⟩]
  limit : ws.session.history.limit = limit
  free : ws.world.Free
  air : ws.world.get ⟨0, .zero⟩ = .air

theorem stoneMoves_leave (limit : Nat) :
    StoneToRedo limit (withStone.moveAll tools (stoneMoves limit)) := by
  have hempty : World.empty.Free := World.Made.empty.free
  have hair : World.empty.get ⟨0, .zero⟩ = .air := by simp [World.empty, World.get]
  have hpasted : (World.empty.writeAll 0 [(.zero, stone)] .quiet).1.get ⟨0, .zero⟩ = stone :=
    (get_writeOne hempty _ _ _ _ _).trans (if_pos rfl)
  have hredos : (withStone.moveAll tools (stoneMoves limit)).session.history.redos =
      [⟨0, [(.zero, (World.empty.writeAll 0 [(.zero, stone)] .quiet).1.get ⟨0, .zero⟩)]⟩] := by
    simp only [moveAll, stoneMoves, List.foldl_cons, List.foldl_nil, move]
    rw [call_pasteAt tools rfl rfl]
    rfl
  have hworld : (withStone.moveAll tools (stoneMoves limit)).world =
      ((World.empty.writeAll 0 [(.zero, stone)] .quiet).1.writeAll 0
        [(.zero, World.empty.get ⟨0, .zero⟩)] .quiet).1 := by
    simp only [moveAll, stoneMoves, List.foldl_cons, List.foldl_nil, move]
    rw [call_pasteAt tools rfl rfl]
    rfl
  refine ⟨rfl, rfl, ?_, withStone.moveAll_limit tools _, ?_, ?_⟩
  · rw [hredos, hpasted]
  · rw [hworld]
    exact (hempty.writeAll _ _).writeAll _ _
  · rw [hworld, get_writeOne (hempty.writeAll _ _), if_pos rfl, hair, Entry.kept_air]

namespace StoneToRedo

variable {limit : Nat} {ws : Workspace Float}

/-- The stone can be pasted elsewhere, which writes one block. -/
theorem paste (h : StoneToRedo limit ws) (p : Pos) :
    (ws.call tools (pasteAt p)).2 = .ok 1 ∧ ws.wrote (ws.call tools (pasteAt p)).1 = true := by
  have hcount : (ws.world.writeAll 0 [(p, stone)] ws.session.mode).2 = 1 ∧
      (ws.world.writeAll 0 [(p, stone)] ws.session.mode).1.writes = ws.world.writes + 1 :=
    World.writeAll_count h.free _ _
  obtain ⟨htaken, hwrites⟩ := hcount
  rw [call_pasteAt tools h.mask h.clipboard]
  refine ⟨congrArg Except.ok htaken, decide_eq_true ?_⟩
  show ws.world.writes < (ws.world.writeAll 0 [(p, stone)] ws.session.mode).1.writes
  rw [hwrites]
  exact Nat.lt_succ_self _

/-- Under limit zero that does not keep redo from putting the first stone back. -/
theorem redo_after_paste (h : StoneToRedo 0 ws) {p : Pos} (hp : p ≠ .zero) :
    let edited := ws.call tools (pasteAt p)
    edited.2 = .ok 1 ∧ ws.wrote edited.1 = true ∧ edited.1.world.get ⟨0, .zero⟩ = .air ∧
      edited.1.redo.2 = .ok 1 ∧ edited.1.redo.1.world.get ⟨0, .zero⟩ = stone := by
  obtain ⟨htaken, hwrote⟩ := h.paste tools p
  -- the paste is not recorded, so that the stack stays
  have hredos : (ws.call tools (pasteAt p)).1.session.history.redos = [⟨0, [(.zero, stone)]⟩] := by
    rw [(ws.call_edited rfl).redos hwrote, if_pos h.limit, h.redos]
  have hworld : (ws.call tools (pasteAt p)).1.world =
      (ws.world.writeAll 0 [(p, stone)] ws.session.mode).1 := by
    rw [call_pasteAt tools h.mask h.clipboard]
    rfl
  generalize ws.call tools (pasteAt p) = edited at *
  have hfree : edited.1.world.Free := by
    rw [hworld]
    exact h.free.writeAll _ _
  obtain ⟨hanswer, hredone⟩ := redo_restores hredos
  refine ⟨htaken, hwrote, ?_, hanswer, ?_⟩
  · rw [hworld, get_writeOne h.free, if_neg (fun heq => hp (congrArg Site.pos heq).symm), h.air]
  · rw [hredone]
    exact (get_writeOne hfree 0 .zero stone _ _).trans (if_pos rfl)

end StoneToRedo

/-- Under limit one a paste leaves nothing to redo, although there was something. -/
theorem edit_empties_redo_iff_stone :
    let tools : EditTools := ⟨.withSeed .flat 0, .standard⟩
    let before := withStone.moveAll tools (stoneMoves 1)
    let after := (before.call tools (pasteAt (.splat 1))).1
    before.wrote after = true ∧ before.session.history.redos ≠ [] ∧
      after.session.history.redos = [] ∧ after.redo = (after, .error .nothingToRedo) := by
  intro tools
  have hstone := stoneMoves_leave tools 1
  have hwrote := (hstone.paste tools (.splat 1)).2
  obtain ⟨hredo, hempty, -⟩ := edit_empties_redo_iff tools withStone (stoneMoves 1)
    (c := pasteAt (.splat 1)) rfl hwrote
  have hsome : (withStone.moveAll tools (stoneMoves 1)).session.history.redos ≠ [] := by
    rw [hstone.redos]
    exact List.cons_ne_nil _ _
  have hlimit : lastLimit withStone.session.history.limit (stoneMoves 1) ≠ 0 := by decide
  generalize withStone.moveAll tools (stoneMoves 1) = before at *
  exact ⟨hwrote, hsome, hempty.2 (.inl hlimit), hredo.2 (hempty.2 (.inl hlimit))⟩

/-- **Under limit zero an edit does not bar redo.** Stone was pasted and that was undone. The stone
that is then pasted elsewhere is not recorded, and redo puts the first one back. -/
theorem redo_after_unrecorded_edit :
    let tools : EditTools := ⟨.withSeed .flat 0, .standard⟩
    let before := withStone.moveAll tools (stoneMoves 0)
    let edited := before.call tools (pasteAt (.splat 1))
    edited.2 = .ok 1 ∧ before.wrote edited.1 = true ∧ edited.1.world.get ⟨0, .zero⟩ = .air ∧
      edited.1.redo.2 = .ok 1 ∧ edited.1.redo.1.world.get ⟨0, .zero⟩ = stone := by
  intro tools
  exact (stoneMoves_leave tools 0).redo_after_paste tools (by decide)

end Workspace

end VoxelEdit
