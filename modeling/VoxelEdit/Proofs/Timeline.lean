import VoxelEdit.Proofs.EditOutcome

/-!
# Undo and redo follow a timeline

The history of a session keeps differences, not worlds. Seen from outside it is a timeline: the
worlds before, the world now, and the worlds that were undone.

* `Trail`: the snapshots of a stack lead from view to view, each to the next one.
* `Tracks`: the invariant that ties a workspace to a timeline. `Tracks.call` keeps it over one
  call, `Tracks.run` over any number of them.
* `undo_redo_timeline`: **after any calls the world shows the present of the timeline, the stacks
  are as long as its past and its future, and undo and redo fail exactly at its ends.**
-/

namespace VoxelEdit

/-! ## The timeline -/

/-- The views of the past, newest first, the present one, and those to come, nearest first. -/
structure Timeline where
  past : List View
  present : View
  future : List View

/-- What can be asked of an edit session. -/
inductive Call where
  | fill (pattern : Pattern)
  | replace (wanted pattern : Pattern)
  | copy (player : Pos)
  | cut (player : Pos)
  | paste (site : Site) (options : PasteOptions)
  | undo
  | redo

namespace Timeline

/-- A timeline without past and future. -/
def start (v : View) : Timeline := ⟨[], v, []⟩

/-- A new present. The old one joins the past, which keeps its `limit` newest views, and the
future is gone. -/
def advance (t : Timeline) (limit : Nat) (v : View) : Timeline :=
  ⟨(t.present :: t.past).take limit, v, []⟩

/-- One step back, if there is a past. -/
def back (t : Timeline) : Timeline :=
  match t.past with
  | [] => t
  | v :: past => ⟨past, v, t.present :: t.future⟩

/-- One step forward, if there is a future. -/
def forth (t : Timeline) : Timeline :=
  match t.future with
  | [] => t
  | v :: future => ⟨t.present :: t.past, v, future⟩

/-- The timeline after a call: undo and redo move along it, and an edit that was done and wrote
something makes a new present. -/
def after (t : Timeline) (limit : Nat) (call : Call) (done wrote : Bool) (v : View) : Timeline :=
  match call with
  | .undo => t.back
  | .redo => t.forth
  | _ => if done && wrote then t.advance limit v else t

end Timeline

/-! ## Runs of calls -/

namespace Workspace

variable {R : Type} [Radius R] (tools : EditTools)

/-- Answers a call. -/
def call (ws : Workspace R) : Call → Workspace R × Except EditError Nat
  | .fill pattern => ws.fill tools pattern
  | .replace wanted pattern => ws.replace tools wanted pattern
  | .copy player => ws.copy player
  | .cut player => ws.cut player
  | .paste site options => ws.paste tools site options
  | .undo => ws.undo
  | .redo => ws.redo

/-- Whether world `w'` has seen more writes than `w`. -/
def wrote (ws ws' : Workspace R) : Bool := ws.world.writes < ws'.world.writes

/-- Answers calls in order and keeps a timeline beside the workspace. -/
def run (limit : Nat) : Workspace R → Timeline → List Call → Workspace R × Timeline
  | ws, t, [] => (ws, t)
  | ws, t, c :: cs =>
    let r := ws.call tools c
    run limit r.1 (t.after limit c r.2.isOk (ws.wrote r.1) r.1.world.get) cs

end Workspace

/-! ## The invariant -/

/-- The snapshots of a stack lead from a view to the first of a list of views, from that to the
next one, and so on to the end of both lists. -/
def Trail : List Snapshot → View → List View → Prop
  | [], _, [] => True
  | s :: ss, v, v' :: vs => s.Leads v v' ∧ Trail ss v' vs
  | _, _, _ => False

namespace Trail

variable {ss : List Snapshot} {v : View} {vs : List View}

theorem length_eq (h : Trail ss v vs) : ss.length = vs.length := by
  induction ss generalizing v vs with
  | nil =>
    cases vs with
    | nil => rfl
    | cons _ _ => exact h.elim
  | cons s ss ih =>
    cases vs with
    | nil => exact h.elim
    | cons v' vs => simp [ih h.2]

/-- Dropping the far end of a trail. -/
theorem take (h : Trail ss v vs) (n : Nat) : Trail (ss.take n) v (vs.take n) := by
  induction n generalizing ss v vs with
  | zero => simp [Trail]
  | succ n ih =>
    cases ss <;> cases vs
    · exact h
    · exact h.elim
    · exact h.elim
    · exact ⟨h.1, ih h.2⟩

end Trail

/-- **The invariant.** The world shows the present, undoing leads through the past and redoing
through the future, and the two together fit under the limit. -/
structure Tracks {R : Type} (limit : Nat) (ws : Workspace R) (t : Timeline) : Prop where
  free : ws.world.Free
  tidy : ws.world.Tidy
  bound : ws.session.history.limit = limit
  present : ws.world.get = t.present
  past : Trail ws.session.history.undos t.present t.past
  future : Trail ws.session.history.redos t.present t.future
  room : t.past.length + t.future.length ≤ limit

namespace Tracks

variable {R : Type} {limit : Nat} {ws : Workspace R} {t : Timeline}

/-- Nothing but the world's view and the history matters. -/
theorem of_eq {ws' : Workspace R} (h : Tracks limit ws t) (hw : ws'.world = ws.world)
    (hh : ws'.session.history = ws.session.history) : Tracks limit ws' t := by
  refine ⟨?_, ?_, ?_, ?_, ?_, ?_, h.room⟩
  · rw [hw]; exact h.free
  · rw [hw]; exact h.tidy
  · rw [hh]; exact h.bound
  · rw [hw]; exact h.present
  · rw [hh]; exact h.past
  · rw [hh]; exact h.future

theorem start (hw : ws.world.Made) (hh : ws.session.history = .empty limit) :
    Tracks limit ws (.start ws.world.get) := by
  refine ⟨hw.free, hw.tidy, ?_, rfl, ?_, ?_, Nat.zero_le _⟩ <;> rw [hh]
  · rfl
  · trivial
  · trivial

/-- **Writing a plan makes a new present**, if the plan is not empty. -/
theorem advance (h : Tracks limit ws t) (hl : 1 ≤ limit) {ws' : Workspace R} {dim : Int} {plan : Plan}
    {mode : UpdateMode} (hw : ws'.world = (ws.world.writeAll dim plan mode).1)
    (hh : ws'.session.history =
      ws.session.history.record (.capture ws.world dim (plan.map Prod.fst)))
    (hp : plan ≠ []) : Tracks limit ws' (t.advance limit ws'.world.get) := by
  set s := Snapshot.capture ws.world dim (plan.map Prod.fst) with hs
  have hne : s.blocks.isEmpty = false := by
    rw [hs]
    cases plan with
    | nil => exact absurd rfl hp
    | cons x plan => rfl
  -- the limit is at least one, so that the snapshot is recorded
  have hrec : ws'.session.history =
      ⟨(s :: ws.session.history.undos).take limit, [], limit⟩ := by
    have hb := h.bound
    rw [hh]
    unfold History.record
    rw [if_neg (by rw [hne, hb]; simp; omega)]
    simp only [hb]
  -- what was recorded leads from the new view to the old one
  have hlead : s.Leads ws'.world.get t.present := by
    rw [← h.present, hw]
    exact Snapshot.capture_leads h.tidy dim _ fun u hu => World.get_writeAll_of_notMem h.free hu
  refine ⟨?_, ?_, ?_, rfl, ?_, ?_, ?_⟩
  · rw [hw]; exact h.free.writeAll plan mode
  · rw [hw]; exact World.Tidy.writeAll h.free h.tidy plan mode
  · rw [hrec]
  · rw [hrec]
    have htrail : Trail (s :: ws.session.history.undos) ws'.world.get (t.present :: t.past) :=
      ⟨hlead, h.past⟩
    exact htrail.take limit
  · rw [hrec]; trivial
  · simp only [Timeline.advance, List.length_take, List.length_nil]
    omega

theorem edit (h : Tracks limit ws t) (hl : 1 ≤ limit) {r : Workspace R × Except EditError Nat}
    (hr : ws.Edited r) :
    Tracks limit r.1 (if r.2.isOk && ws.wrote r.1 then t.advance limit r.1.world.get else t) := by
  cases hr with
  | refused ws' e hw hh =>
    have hok : (Except.error e : Except EditError Nat).isOk = false := rfl
    simp only [hok, Bool.false_and, Bool.false_eq_true, if_false]
    exact h.of_eq hw hh
  | done ws' n dim plan mode hw hh =>
    have hok : (Except.ok n : Except EditError Nat).isOk = true := rfl
    have hcount : ws'.world.writes = ws.world.writes + plan.length := by
      rw [hw]; exact (World.writeAll_count h.free plan mode).2
    simp only [hok, Bool.true_and]
    by_cases hp : plan = []
    · have hsame : ws.wrote ws' = false := by simp [Workspace.wrote, hcount, hp]
      rw [hsame, if_neg Bool.false_ne_true]
      subst hp
      exact h.of_eq hw hh
    · have hmore : ws.wrote ws' = true := by
        have := List.length_pos_iff.2 hp
        simp only [Workspace.wrote, hcount, decide_eq_true_eq]
        omega
      rw [if_pos hmore]
      exact h.advance hl hw hh hp

/-- **Undoing steps back.** -/
theorem undo (h : Tracks limit ws t) : Tracks limit ws.undo.1 t.back := by
  have hpast := h.past
  unfold Workspace.undo Workspace.restored History.undo? Timeline.back
  cases hu : ws.session.history.undos with
  | nil =>
    rw [hu] at hpast
    cases hv : t.past with
    | nil => exact h
    | cons v vs => rw [hv] at hpast; exact hpast.elim
  | cons s ss =>
    rw [hu] at hpast
    cases hv : t.past with
    | nil => rw [hv] at hpast; exact hpast.elim
    | cons v vs =>
      rw [hv] at hpast
      obtain ⟨hs, hss⟩ := hpast
      rw [← h.present] at hs
      refine ⟨h.free.writeAll _ _, World.Tidy.writeAll h.free h.tidy _ _, h.bound, ?_, hss, ?_, ?_⟩
      · exact Snapshot.get_restore h.free hs
      · have hback := Snapshot.restore_leads h.tidy hs ws.session.mode
        rw [h.present] at hback
        exact ⟨hback, h.future⟩
      · have hroom := h.room
        rw [hv] at hroom
        simp only [List.length_cons] at hroom ⊢
        omega

/-- **Redoing steps forward.** The limit drops nothing here, as past and future fit under it. -/
theorem redo (h : Tracks limit ws t) : Tracks limit ws.redo.1 t.forth := by
  have hfuture := h.future
  unfold Workspace.redo Workspace.restored History.redo? Timeline.forth
  cases hu : ws.session.history.redos with
  | nil =>
    rw [hu] at hfuture
    cases hv : t.future with
    | nil => exact h
    | cons v vs => rw [hv] at hfuture; exact hfuture.elim
  | cons s ss =>
    rw [hu] at hfuture
    cases hv : t.future with
    | nil => rw [hv] at hfuture; exact hfuture.elim
    | cons v vs =>
      rw [hv] at hfuture
      obtain ⟨hs, hss⟩ := hfuture
      rw [← h.present] at hs
      have hroom := h.room
      rw [hv] at hroom
      simp only [List.length_cons] at hroom
      refine ⟨h.free.writeAll _ _, World.Tidy.writeAll h.free h.tidy _ _, h.bound, ?_, ?_, hss, ?_⟩
      · exact Snapshot.get_restore h.free hs
      · have hback := Snapshot.restore_leads h.tidy hs ws.session.mode
        rw [h.present] at hback
        have hlen := h.past.length_eq
        simp only
        -- as there is a future, the past has room for one more
        rw [List.take_of_length_le (by rw [h.bound, List.length_cons]; omega)]
        exact ⟨hback, h.past⟩
      · simp only [List.length_cons]
        omega

variable [Radius R] {tools : EditTools}

/-- One call keeps the invariant. -/
theorem call (h : Tracks limit ws t) (hl : 1 ≤ limit) (c : Call) :
    Tracks limit (ws.call tools c).1 (t.after limit c (ws.call tools c).2.isOk
      (ws.wrote (ws.call tools c).1) (ws.call tools c).1.world.get) := by
  cases c with
  | fill pattern => exact h.edit hl (ws.fill_edited tools pattern)
  | replace wanted pattern => exact h.edit hl (ws.replace_edited tools wanted pattern)
  | copy player => exact h.edit hl (ws.copy_edited player)
  | cut player => exact h.edit hl (ws.cut_edited player)
  | paste site options => exact h.edit hl (ws.paste_edited tools site options)
  | undo => exact h.undo
  | redo => exact h.redo

/-- Any number of calls keeps the invariant. -/
theorem run (h : Tracks limit ws t) (hl : 1 ≤ limit) (calls : List Call) :
    Tracks limit (Workspace.run tools limit ws t calls).1
      (Workspace.run tools limit ws t calls).2 := by
  induction calls generalizing ws t with
  | nil => exact h
  | cons c cs ih => exact ih (h.call hl c)

end Tracks

/-- What a timeline tells of a workspace: what its world shows, how long the stacks are, and
whether there is something to undo or to redo. -/
structure Timeline.Describes {R : Type} (t : Timeline) (ws : Workspace R) : Prop where
  world : ∀ s, ws.world.get s = t.present s
  undos : ws.session.history.undos.length = t.past.length
  redos : ws.session.history.redos.length = t.future.length
  undo_fails : ws.undo.2 = .error .nothingToUndo ↔ t.past = []
  undo_works : (∃ n, ws.undo.2 = .ok n) ↔ t.past ≠ []
  redo_fails : ws.redo.2 = .error .nothingToRedo ↔ t.future = []
  redo_works : (∃ n, ws.redo.2 = .ok n) ↔ t.future ≠ []

theorem Tracks.describes {R : Type} {limit : Nat} {ws : Workspace R} {t : Timeline}
    (h : Tracks limit ws t) : t.Describes ws := by
  have hpast := h.past.length_eq
  have hfuture := h.future.length_eq
  have hu : (ws.undo.2 = .error .nothingToUndo ↔ t.past = []) ∧
      ((∃ n, ws.undo.2 = .ok n) ↔ t.past ≠ []) := by
    unfold Workspace.undo Workspace.restored History.undo?
    cases hs : ws.session.history.undos <;> cases hv : t.past <;> simp_all
  have hr : (ws.redo.2 = .error .nothingToRedo ↔ t.future = []) ∧
      ((∃ n, ws.redo.2 = .ok n) ↔ t.future ≠ []) := by
    unfold Workspace.redo Workspace.restored History.redo?
    cases hs : ws.session.history.redos <;> cases hv : t.future <;> simp_all
  exact ⟨fun s => congrFun h.present s, hpast, hfuture, hu.1, hu.2, hr.1, hr.2⟩

/-- **Undo and redo follow a timeline.** Start with any session without history, over any world
that writes have made, and answer any calls. After each of them the timeline describes the
workspace: the world shows the present at every site, the stacks are as long as past and future,
and undo and redo fail exactly where there is no past or no future. -/
theorem undo_redo_timeline {R : Type} [Radius R] (tools : EditTools) {limit : Nat} (hl : 1 ≤ limit)
    {ws : Workspace R} (hw : ws.world.Made) (hh : ws.session.history = .empty limit)
    (calls : List Call) :
    let (ws', t) := Workspace.run tools limit ws (.start ws.world.get) calls
    t.Describes ws' :=
  ((Tracks.start hw hh).run hl calls).describes

/-- A stone is cut, pasted into another dimension, both are undone and the first is redone. -/
theorem undo_redo_timeline_cut_paste :
    let tools : EditTools := ⟨.withSeed .flat 0, .standard⟩
    let stone : Entry := .ofBlock (.ofName "minecraft:stone")
    let fresh : Session Float := .new .standard
    let ws : Workspace Float :=
      { session := { fresh with region := some (.ofBox .cuboid 0 ⟨.zero, .splat 1⟩) }
        canvas := .blank
        world := (World.empty.write ⟨0, .zero⟩ stone .quiet).1
        sampling := ⟨.empty, .ofList []⟩ }
    let calls : List Call := [.cut .zero, .paste ⟨1, .splat 1⟩ ⟨false, false, true, false⟩,
      .undo, .undo, .redo]
    1 ≤ 20 ∧ ws.world.Made ∧ ws.session.history = .empty 20 ∧
      let (ws', t) := Workspace.run tools 20 ws (.start ws.world.get) calls
      t.Describes ws' := by
  intro tools stone fresh ws calls
  have hw : ws.world.Made := .write _ _ _ .empty
  exact ⟨by decide, hw, rfl, undo_redo_timeline tools (by decide) hw rfl calls⟩

end VoxelEdit
