import VoxelEdit.Proofs.WorldView
import VoxelEdit.Session.Edit

/-!
# How edits end

Every edit of a session ends in one of two ways (`Workspace.Edited`): it is refused, and then
world and history are what they were; or it is done, and then one plan was written and one
snapshot of what it replaced was recorded. Fill, replace, copy, cut and paste are edits.
-/

namespace VoxelEdit

/-! ## Stages keep the history -/

namespace Stage

variable {R : Type} (st : Stage R)

theorem unmark_history (hand : Hand) : (st.unmark hand).session.history = st.session.history := by
  cases hand <;> rfl

theorem redraw_history : st.redraw.session.history = st.session.history := by
  unfold redraw
  simp only
  split <;> rfl

theorem setRegion_history (r : Region R) :
    (st.setRegion r).session.history = st.session.history := by
  unfold setRegion putRegion
  rw [redraw_history]
  show (st.unmarkAll).session.history = _
  unfold unmarkAll
  rw [unmark_history, unmark_history]

end Stage

/-! ## How edits end -/

namespace Workspace

variable {R : Type} (ws : Workspace R)

/-- An edit is refused and changes neither world nor history, or it is done: a plan is written
and what it replaces is recorded. The plan may be empty. -/
inductive Edited (ws : Workspace R) : Workspace R × Except EditError Nat → Prop
  | refused (ws' : Workspace R) (e : EditError) (hw : ws'.world = ws.world)
      (hh : ws'.session.history = ws.session.history) : Edited ws (ws', .error e)
  | done (ws' : Workspace R) (n : Nat) (dim : Int) (plan : Plan) (mode : UpdateMode)
      (hw : ws'.world = (ws.world.writeAll dim plan mode).1)
      (hh : ws'.session.history =
        ws.session.history.record (.capture ws.world dim (plan.map Prod.fst))) :
      Edited ws (ws', .ok n)

/-- An edit that writes nothing is done with an empty plan. -/
theorem Edited.idle (ws' : Workspace R) (n : Nat) (hw : ws'.world = ws.world)
    (hh : ws'.session.history = ws.session.history) : Edited ws (ws', .ok n) :=
  .done ws' n 0 [] .quiet hw hh

theorem perform_edited (dim : Int) (plan : Sampling Plan) : Edited ws (ws.perform dim plan) := by
  unfold perform
  split
  · exact .refused _ _ rfl rfl
  · exact .done _ _ _ _ _ rfl rfl

variable [Radius R] (tools : EditTools)

theorem select_world (dim : Int) (b : Box) : (ws.select dim b).world = ws.world := rfl

theorem select_history (dim : Int) (b : Box) :
    (ws.select dim b).session.history = ws.session.history :=
  ws.toStage.setRegion_history _

theorem fill_edited (pattern : Pattern) : Edited ws (ws.fill tools pattern) := by
  unfold fill
  split
  · exact .refused _ _ rfl rfl
  · exact ws.perform_edited _ _

theorem replace_edited (wanted pattern : Pattern) : Edited ws (ws.replace tools wanted pattern) := by
  unfold replace
  split
  · exact .refused _ _ rfl rfl
  · exact ws.perform_edited _ _

theorem copy_edited (player : Pos) : Edited ws (ws.copy player) := by
  unfold copy
  split
  · exact .refused _ _ rfl rfl
  · exact .idle _ _ _ rfl rfl

theorem cut_edited (player : Pos) : Edited ws (ws.cut player) := by
  unfold cut
  split
  · exact .refused _ _ rfl rfl
  · rename_i r hr
    -- the copy before it changes neither the world nor the history
    unfold copy
    rw [hr]
    exact .done _ _ _ _ _ rfl rfl

theorem paste_edited (site : Site) (options : PasteOptions) :
    Edited ws (ws.paste tools site options) := by
  unfold paste
  simp only
  split
  · exact .refused _ _ rfl rfl
  split
  · -- a dry run selects only
    exact .idle _ _ _ (select_world _ _ _) (select_history _ _ _)
  have hp := ws.perform_edited site.dim (Plan.ofClipboard tools.functions ws.session.mask
    ws.session.clipboard options.skipAir (ws.session.clipboard.anchor site.pos options.atOrigin))
  split
  · rename_i ws₁ e heq
    rw [heq] at hp
    exact hp
  · rename_i ws₁ n heq
    rw [heq] at hp
    cases hp with
    | done _ _ dim plan mode hw hh =>
      -- a selection after the edit keeps what it did
      by_cases hs : options.select
      · rw [if_pos hs]
        exact .done _ _ dim plan mode (by rw [select_world, hw]) (by rw [select_history, hh])
      · rw [if_neg hs]
        exact .done _ _ dim plan mode hw hh

end Workspace

end VoxelEdit
