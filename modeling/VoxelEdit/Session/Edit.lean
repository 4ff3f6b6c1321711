import VoxelEdit.Clipboard.Capture
import VoxelEdit.Pattern.Matching
import VoxelEdit.Pattern.Parser
import VoxelEdit.Pattern.Sample
import VoxelEdit.Session.Basic

/-!
# Edits

Changes to the world on behalf of a session. An edit first plans all of its writes, so that
nothing it writes is seen by its own matches and draws; then it records what stood there and
writes. The global mask leaves out positions where its formula is zero.
-/

namespace VoxelEdit

/-- Why an edit was not done. -/
inductive EditError where
  | noRegion
  | emptyClipboard
  | nothingToUndo
  | nothingToRedo
  | pattern (cause : PatternError)
  | formula (cause : EvalError)
deriving DecidableEq, Repr

/-- The message of an error. -/
def EditError.message : EditError → String
  | .noRegion => "No region selected"
  | .emptyClipboard => "Clipboard is empty"
  | .nothingToUndo => "Nothing to undo"
  | .nothingToRedo => "Nothing to redo"
  | .pattern cause => "Invalid pattern: " ++ cause.message
  | .formula cause => "Expression error: " ++ cause.message

/-- How to paste. -/
structure PasteOptions where
  /-- Leave the world alone where the clipboard is empty. -/
  skipAir : Bool
  /-- Paste where the content was copied from. -/
  atOrigin : Bool
  /-- Select what was pasted. -/
  select : Bool
  /-- Select it without writing. -/
  dryRun : Bool
deriving DecidableEq, Repr

/-- What edits need besides session and world. -/
structure EditTools where
  functions : Functions
  registry : BlockRegistry

/-- A session with its canvas, the world, and what sampling keeps. -/
structure Workspace (R : Type) extends Stage R where
  world : World
  sampling : SampleState

/-! ## Planning -/

/-- Entries for positions, in order. -/
abbrev Plan := List (Pos × Entry)

namespace Plan

/-- Checks that a mask can be read. -/
def checkMask (mask : Option String) : Sampling Unit :=
  match mask with
  | none => pure ()
  | some text => do
    let _ ← Sampling.compile text
    return ()

/-- Whether a mask lets a position through. -/
def allows (fs : Functions) (mask : Option String) (vars : Variables) : Sampling Bool :=
  match mask with
  | none => pure true
  | some text => do return (← Sampling.formula fs vars text) != 0.0

/-- The entries that `choose` finds for the items, onto `taken`, which is reversed. -/
def gather {α : Type} (choose : α → Sampling (Option (Pos × Entry))) :
    (items : List α) → (taken : Plan) → Sampling Plan
  | [], taken => pure taken.reverse
  | a :: items, taken => do
    match ← choose a with
    | some write => gather choose items (write :: taken)
    | none => gather choose items taken

/-- Samples of a pattern at positions of a box that the mask lets through. -/
def ofPattern {R : Type} (scene : Scene R) (mask : Option String) (pattern : Pattern) (b : Box)
    (ps : List Pos) : Sampling Plan := do
  checkMask mask
  gather (fun p => do
    let vars := Variables.ofPosition p b
    if ← allows scene.functions mask vars then
      return (← pattern.sample scene vars p).map fun e => (p, e)
    else return none) ps []

/-- The cells of a clipboard at an anchor that the mask lets through. -/
def ofClipboard (fs : Functions) (mask : Option String) (c : Clipboard) (skipAir : Bool)
    (anchor : Pos) : Sampling Plan := do
  checkMask mask
  gather (fun (cell, e) => do
    let p := anchor + cell
    if skipAir && e.isAir then return none
    else if ← allows fs mask (.ofPosition p (c.footprint anchor)) then return some (p, e)
    else return none) c.toList []

end Plan

/-! ## Edits -/

namespace Workspace

variable {R : Type} [Radius R] (tools : EditTools) (ws : Workspace R)

/-- Writes a plan and records what it replaced. Returns how many writes were taken. -/
def commit (dim : Int) (plan : Plan) : Workspace R × Nat :=
  let s := ws.session
  let snapshot := Snapshot.capture ws.world dim (plan.map Prod.fst)
  let (world, n) := ws.world.writeAll dim plan s.mode
  ({ ws with world, session := { s with history := s.history.record snapshot } }, n)

/-- What patterns are sampled in over a region. -/
def scene (r : Region R) : Scene R :=
  ⟨tools.functions, tools.registry, some ws.session.clipboard, some r⟩

/-- Plans an edit in one dimension and commits it. A plan that fails leaves nothing but the
draws that it used. -/
def perform (dim : Int) (plan : Sampling Plan) : Workspace R × Except EditError Nat :=
  match plan ws.sampling with
  | (.error e, sampling) => ({ ws with sampling }, .error (.formula e))
  | (.ok plan, sampling) =>
    let (ws, n) := { ws with sampling }.commit dim plan
    (ws, .ok n)

/-- Fills the region with a pattern. -/
def fill (pattern : Pattern) : Workspace R × Except EditError Nat :=
  match ws.session.region with
  | none => (ws, .error .noRegion)
  | some r => ws.perform r.dim
      (Plan.ofPattern (ws.scene tools r) ws.session.mask pattern r.box r.positions)

/-- Replaces the blocks of the region that match one pattern by samples of another. -/
def replace (wanted pattern : Pattern) : Workspace R × Except EditError Nat :=
  match ws.session.region with
  | none => (ws, .error .noRegion)
  | some r =>
    let matching := r.positions.filter fun p =>
      wanted.admits tools.registry (ws.world.get ⟨r.dim, p⟩).block
    ws.perform r.dim (Plan.ofPattern (ws.scene tools r) ws.session.mask pattern r.box matching)

/-- Copies the region into the clipboard. Returns the number of cells. -/
def copy (player : Pos) : Workspace R × Except EditError Nat :=
  match ws.session.region with
  | none => (ws, .error .noRegion)
  | some r =>
    let clipboard := Clipboard.capture r ws.world player
    ({ ws with session := { ws.session with clipboard } }, .ok clipboard.count)

/-- Copies the region and empties it, whatever the mask. Returns the number of cells. -/
def cut (player : Pos) : Workspace R × Except EditError Nat :=
  match ws.session.region with
  | none => (ws, .error .noRegion)
  | some r =>
    let (ws, count) := ws.copy player
    ((ws.commit r.dim (r.positions.map fun p => (p, .air))).1, count)

/-- Selects a box. -/
def select (dim : Int) (b : Box) : Workspace R :=
  { ws with toStage := ws.toStage.setRegion (.ofBox ws.session.kind dim b) }

/-- Pastes the clipboard. -/
def paste (site : Site) (options : PasteOptions) : Workspace R × Except EditError Nat :=
  let c := ws.session.clipboard
  if !c.used then (ws, .error .emptyClipboard)
  else
    let anchor := c.anchor site.pos options.atOrigin
    let footprint := c.footprint anchor
    if options.dryRun then (ws.select site.dim footprint, .ok 0)
    else
      match ws.perform site.dim
          (Plan.ofClipboard tools.functions ws.session.mask c options.skipAir anchor) with
      | (ws, .error e) => (ws, .error e)
      | (ws, .ok n) => (if options.select then ws.select site.dim footprint else ws, .ok n)

/-- Puts a restored history and world in place. -/
def restored (result : Option (Nat × History × World)) (error : EditError) :
    Workspace R × Except EditError Nat :=
  match result with
  | none => (ws, .error error)
  | some (n, history, world) => ({ ws with world, session := { ws.session with history } }, .ok n)

/-- Reverts the latest edit. Returns the number of restored positions. -/
def undo : Workspace R × Except EditError Nat :=
  ws.restored (ws.session.history.undo? ws.world ws.session.mode) .nothingToUndo

/-- Does the latest reverted edit again. -/
def redo : Workspace R × Except EditError Nat :=
  ws.restored (ws.session.history.redo? ws.world ws.session.mode) .nothingToRedo

end Workspace

end VoxelEdit
