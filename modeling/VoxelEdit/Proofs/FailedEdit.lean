import VoxelEdit.Proofs.EditExact
import VoxelEdit.Proofs.Timeline

/-!
# Edits that fail

An edit plans before it writes, so one that fails has written nothing.

* `Breaks`: a walk that fails at one of its items, after all those before it have answered. A plan
  fails exactly if its mask cannot be read or its walk breaks (`Plan.checked_error_iff`).
* `Workspace.Refusal`: for each call and each error, when the call fails with it
  (`Workspace.call_error_iff`).
* `Workspace.failed_call_changes_nothing`: **a call that fails leaves session, world and canvas as
  they were**; only the draws that it used are gone.
-/

namespace VoxelEdit

open Sampling

/-! ## Walks that break -/

/-- A walk that breaks: the items before some item answer one after the other, and that one fails
with the draws that they left. -/
def Breaks {α β : Type} (x : α → Sampling β) (d : Draws) (items : List α) (e : EvalError) : Prop :=
  ∃ before a after found d', items = before ++ a :: after ∧ Samples x d before found d' ∧
    ((x a).answer d').1 = .error e

section

variable {α β : Type} {x : α → Sampling β} {d d' : Draws} {items : List α} {a : α} {b : β}
  {e : EvalError}

theorem not_breaks_nil : ¬ Breaks x d [] e := by
  rintro ⟨before, a, after, -, -, h, -⟩
  exact absurd h.symm (by simp)

theorem breaks_cons_of_error (h : (x a).answer d = (.error e, d')) {e' : EvalError} :
    Breaks x d (a :: items) e' ↔ e' = e := by
  constructor
  · rintro ⟨before, a', after, found, d₁, hitems, hs, ha⟩
    cases hs with
    | nil =>
      obtain ⟨rfl, -⟩ := List.cons.inj hitems
      rw [h] at ha
      exact (Except.error.inj ha).symm
    | cons hfirst _ =>
      obtain ⟨rfl, -⟩ := List.cons.inj hitems
      rw [h] at hfirst
      exact nomatch (Prod.mk.inj hfirst).1
  · rintro rfl
    exact ⟨[], a, items, [], d, rfl, .nil d, by rw [h]⟩

theorem breaks_cons_of_ok (h : (x a).answer d = (.ok b, d')) :
    Breaks x d (a :: items) e ↔ Breaks x d' items e := by
  constructor
  · rintro ⟨before, a', after, found, d₁, hitems, hs, ha⟩
    cases hs with
    | nil =>
      obtain ⟨rfl, -⟩ := List.cons.inj hitems
      rw [h] at ha
      exact nomatch ha
    | cons hfirst hrest =>
      obtain ⟨rfl, hrest'⟩ := List.cons.inj hitems
      rw [h] at hfirst
      obtain ⟨-, rfl⟩ := Prod.mk.inj hfirst
      exact ⟨_, a', after, _, d₁, hrest', hrest, ha⟩
  · rintro ⟨before, a', after, found, d₁, rfl, hs, ha⟩
    exact ⟨a :: before, a', after, b :: found, d₁, rfl, .cons h hs, ha⟩

end

namespace Plan

variable {α : Type} {choose : α → Sampling (Option (Pos × Entry))}

/-- **Gathering fails exactly if the walk breaks.** -/
theorem gather_error_iff (hc : ∀ a, Steady (choose a)) {items : List α} {taken : Plan}
    {s : SampleState} {e : EvalError} :
    (gather choose items taken s).1 = .error e ↔ Breaks choose s.draws items e := by
  induction items generalizing taken s with
  | nil => exact ⟨fun h => (nomatch h), fun h => (not_breaks_nil h).elim⟩
  | cons a items ih =>
    have hsteady := hc a s
    rw [gather, bind_apply]
    rcases hs : choose a s with ⟨e' | o, t⟩ <;> rw [hs] at hsteady
    · rw [breaks_cons_of_error hsteady.symm]
      constructor
      · rintro ⟨⟩
        rfl
      · rintro rfl
        rfl
    · rw [breaks_cons_of_ok hsteady.symm]
      cases o <;> exact ih

/-- A plan with a mask fails: the mask cannot be read, or the walk breaks. -/
def Fails (mask : Option String) (choose : α → Sampling (Option (Pos × Entry))) (d : Draws)
    (items : List α) (e : EvalError) : Prop :=
  (∃ text, mask = some text ∧ Expr.parse text = .error e) ∨
    (∀ text, mask = some text → (Expr.parse text).isOk) ∧ Breaks choose d items e

/-- **A plan with a mask fails exactly as `Fails` says.** -/
theorem checked_error_iff (hc : ∀ a, Steady (choose a)) {mask : Option String} {items : List α}
    {s : SampleState} {e : EvalError} :
    ((checkMask mask >>= fun _ => gather choose items []) s).1 = .error e ↔
      Fails mask choose s.draws items e := by
  unfold Fails
  cases mask with
  | none =>
    simp only [reduceCtorEq, false_and, exists_false, false_or, false_implies, implies_true,
      true_and]
    exact gather_error_iff hc
  | some text =>
    have hread : (checkMask (some text) s).1 = (Expr.parse text).map fun _ => () := by
      obtain ⟨hc, -⟩ := compile_apply text s
      unfold checkMask
      dsimp only
      rw [bind_apply, ← hc]
      rcases compile text s with ⟨_ | _, _⟩ <;> rfl
    have hdraws := checkMask_draws (some text) s
    rw [bind_apply]
    rcases hs : checkMask (some text) s with ⟨o, t⟩
    rw [hs] at hread hdraws
    dsimp only at hread hdraws
    subst hread
    cases hp : Expr.parse text with
    | error e' => simp [hp, Except.map, Except.isOk, Except.toBool]
    | ok _ =>
      simp only [hp, Except.map, Except.isOk, Except.toBool, Option.some.injEq, exists_eq_left',
        forall_eq', reduceCtorEq, false_or, true_and, ← hdraws]
      exact gather_error_iff hc

/-- What a paste does at a cell: its entry, unless it is left out or the mask says so. -/
def visitCell (fs : Functions) (mask : Option String) (c : Clipboard) (skipAir : Bool) (anchor : Pos)
    (x : Pos × Entry) : Sampling (Option (Pos × Entry)) :=
  if skipAir && x.2.isAir then return none
  else do
    if ← allows fs mask (.ofPosition (anchor + x.1) (c.footprint anchor)) then
      return some (anchor + x.1, x.2)
    else return none

theorem visitCell_steady (fs : Functions) (mask : Option String) (c : Clipboard) (skipAir : Bool)
    (anchor : Pos) (x : Pos × Entry) : Steady (visitCell fs mask c skipAir anchor x) := by
  unfold visitCell
  split
  · exact Steady.pure _
  · refine (allows_steady _ _ _).bind fun v => ?_
    split <;> exact Steady.pure _

end Plan

/-! ## Calls that fail -/

/-- Whether a call needs a region. -/
def Call.needsRegion : Call → Bool
  | .fill _ | .replace _ _ | .copy _ | .cut _ => true
  | .paste _ _ | .undo | .redo => false

namespace Workspace

variable {R : Type} [Radius R] (tools : EditTools) (ws : Workspace R)

/-- **When a call fails, and with which error.** -/
inductive Refusal : Call → EditError → Prop
  | noRegion {c : Call} : c.needsRegion = true → ws.session.region = none → Refusal c .noRegion
  | emptyClipboard {site : Site} {options : PasteOptions} : ws.session.clipboard.used = false →
      Refusal (.paste site options) .emptyClipboard
  | nothingToUndo : ws.session.history.undos = [] → Refusal .undo .nothingToUndo
  | nothingToRedo : ws.session.history.redos = [] → Refusal .redo .nothingToRedo
  | fill {pattern : Pattern} {r : Region R} {e : EvalError} : ws.session.region = some r →
      Plan.Fails ws.session.mask (Plan.visit (ws.scene tools r) ws.session.mask pattern r.box)
        ws.sampling.draws r.positions e →
      Refusal (.fill pattern) (.formula e)
  | replace {matched pattern : Pattern} {r : Region R} {e : EvalError} :
      ws.session.region = some r →
      Plan.Fails ws.session.mask (Plan.visit (ws.scene tools r) ws.session.mask pattern r.box)
        ws.sampling.draws (r.positions.filter fun p =>
          matched.admits tools.registry (ws.world.get ⟨r.dim, p⟩).block) e →
      Refusal (.replace matched pattern) (.formula e)
  | paste {site : Site} {options : PasteOptions} {e : EvalError} :
      ws.session.clipboard.used = true → options.dryRun = false →
      Plan.Fails ws.session.mask (Plan.visitCell tools.functions ws.session.mask
        ws.session.clipboard options.skipAir
        (ws.session.clipboard.anchor site.pos options.atOrigin))
        ws.sampling.draws ws.session.clipboard.toList e →
      Refusal (.paste site options) (.formula e)

variable {tools ws}

omit [Radius R] in
/-- An edit that plans fails exactly if the plan does. -/
theorem perform_error_iff {α : Type} {choose : α → Sampling (Option (Pos × Entry))}
    (hc : ∀ a, Steady (choose a)) {dim : Int} {mask : Option String} {items : List α}
    {e : EditError} :
    (ws.perform dim (Plan.checkMask mask >>= fun _ => Plan.gather choose items [])).2 = .error e ↔
      ∃ e', e = .formula e' ∧ Plan.Fails mask choose ws.sampling.draws items e' := by
  simp only [← Plan.checked_error_iff hc]
  unfold perform
  rcases (Plan.checkMask mask >>= fun _ => Plan.gather choose items []) ws.sampling
    with ⟨e' | plan, t⟩
  · constructor
    · rintro ⟨⟩
      exact ⟨e', rfl, rfl⟩
    · rintro ⟨_, rfl, ⟨⟩⟩
      rfl
  · exact ⟨fun h => (nomatch h), fun ⟨_, _, h⟩ => (nomatch h)⟩

variable (tools ws)

/-- Without a region, what needs one is refused at once. -/
theorem call_of_no_region (hr : ws.session.region = none) {c : Call} (hc : c.needsRegion = true) :
    ws.call tools c = (ws, .error .noRegion) := by
  unfold call
  cases c with
  | fill => dsimp only; rw [fill, hr]
  | replace => dsimp only; rw [replace, hr]
  | copy => dsimp only; rw [copy, hr]
  | cut => dsimp only; rw [cut, hr]
  | paste | undo | redo => exact nomatch hc

section

variable {ws} {r : Region R} (hr : ws.session.region = some r)

include hr

theorem fill_error_iff {pattern : Pattern} {e : EditError} :
    (ws.fill tools pattern).2 = .error e ↔ ∃ e', e = .formula e' ∧
      Plan.Fails ws.session.mask (Plan.visit (ws.scene tools r) ws.session.mask pattern r.box)
        ws.sampling.draws r.positions e' := by
  unfold fill
  rw [hr]
  exact perform_error_iff (Plan.visit_steady (ws.scene tools r) ws.session.mask pattern r.box)

theorem replace_error_iff {matched pattern : Pattern} {e : EditError} :
    (ws.replace tools matched pattern).2 = .error e ↔ ∃ e', e = .formula e' ∧
      Plan.Fails ws.session.mask (Plan.visit (ws.scene tools r) ws.session.mask pattern r.box)
        ws.sampling.draws (r.positions.filter fun p =>
          matched.admits tools.registry (ws.world.get ⟨r.dim, p⟩).block) e' := by
  unfold replace
  rw [hr]
  exact perform_error_iff (Plan.visit_steady (ws.scene tools r) ws.session.mask pattern r.box)

theorem copy_ok (player : Pos) : ∃ n, (ws.copy player).2 = .ok n := by
  unfold copy
  rw [hr]
  exact ⟨_, rfl⟩

theorem cut_ok (player : Pos) : ∃ n, (ws.cut player).2 = .ok n := by
  unfold cut copy
  rw [hr]
  exact ⟨_, rfl⟩

end

section

variable {ws} {site : Site} {options : PasteOptions}

theorem paste_of_unused (hu : ws.session.clipboard.used = false) :
    ws.paste tools site options = (ws, .error .emptyClipboard) := by
  unfold paste
  simp only [hu, Bool.not_false, if_true]

theorem paste_dry_ok (hu : ws.session.clipboard.used = true) (hd : options.dryRun = true) :
    (ws.paste tools site options).2 = .ok 0 := by
  unfold paste
  simp only [hu, hd, Bool.not_true, Bool.false_eq_true, if_false, if_true]

omit [Radius R] in
/-- The plan of a paste, as a walk over the cells of the clipboard. -/
def pastePlan (tools : EditTools) (ws : Workspace R) (site : Site) (options : PasteOptions) :
    Sampling Plan :=
  Plan.checkMask ws.session.mask >>= fun _ =>
    Plan.gather (Plan.visitCell tools.functions ws.session.mask ws.session.clipboard
      options.skipAir (ws.session.clipboard.anchor site.pos options.atOrigin))
      ws.session.clipboard.toList []

/-- **A paste performs its plan.** What is selected afterwards does not make it fail. -/
theorem paste_performs (hu : ws.session.clipboard.used = true) (hd : options.dryRun = false) :
    (ws.paste tools site options).2 = (ws.perform site.dim (pastePlan tools ws site options)).2 ∧
      ∀ e, (ws.perform site.dim (pastePlan tools ws site options)).2 = .error e →
        (ws.paste tools site options).1 =
          (ws.perform site.dim (pastePlan tools ws site options)).1 := by
  have hplan : Plan.ofClipboard tools.functions ws.session.mask ws.session.clipboard
      options.skipAir (ws.session.clipboard.anchor site.pos options.atOrigin) =
        pastePlan tools ws site options := rfl
  unfold paste
  simp only [hu, hd, Bool.not_true, Bool.false_eq_true, if_false, hplan]
  rcases ws.perform site.dim (pastePlan tools ws site options) with ⟨ws', e | n⟩
  · exact ⟨rfl, fun _ _ => rfl⟩
  · exact ⟨rfl, fun _ h => nomatch h⟩

theorem paste_error_iff (hu : ws.session.clipboard.used = true) (hd : options.dryRun = false)
    {e : EditError} :
    (ws.paste tools site options).2 = .error e ↔ ∃ e', e = .formula e' ∧
      Plan.Fails ws.session.mask (Plan.visitCell tools.functions ws.session.mask
        ws.session.clipboard options.skipAir
        (ws.session.clipboard.anchor site.pos options.atOrigin))
        ws.sampling.draws ws.session.clipboard.toList e' := by
  rw [(paste_performs tools hu hd).1]
  exact perform_error_iff (Plan.visitCell_steady tools.functions ws.session.mask
    ws.session.clipboard options.skipAir _)

end

omit [Radius R] in
theorem undo_error_iff {e : EditError} :
    ws.undo.2 = .error e ↔ ws.session.history.undos = [] ∧ e = .nothingToUndo := by
  unfold undo restored History.undo?
  cases ws.session.history.undos <;> simp [eq_comm]

omit [Radius R] in
theorem redo_error_iff {e : EditError} :
    ws.redo.2 = .error e ↔ ws.session.history.redos = [] ∧ e = .nothingToRedo := by
  unfold redo restored History.redo?
  cases ws.session.history.redos <;> simp [eq_comm]

/-- A call on a region that fails: the plan of a fill or of a replacement fails. -/
theorem refusal_of_region {r : Region R} (hr : ws.session.region = some r) {c : Call}
    (hc : c.needsRegion = true) {e : EditError} (h : (ws.call tools c).2 = .error e) :
    ws.Refusal tools c e := by
  cases c with
  | fill pattern =>
    obtain ⟨e', rfl, hf⟩ := (fill_error_iff tools hr).1 h
    exact .fill hr hf
  | replace matched pattern =>
    obtain ⟨e', rfl, hf⟩ := (replace_error_iff tools hr).1 h
    exact .replace hr hf
  | copy player =>
    obtain ⟨n, hn⟩ := copy_ok hr player
    exact nomatch hn.symm.trans h
  | cut player =>
    obtain ⟨n, hn⟩ := cut_ok hr player
    exact nomatch hn.symm.trans h
  | paste | undo | redo => exact nomatch hc

/-- **A call fails exactly as `Refusal` says.** -/
theorem call_error_iff {c : Call} {e : EditError} :
    (ws.call tools c).2 = .error e ↔ ws.Refusal tools c e := by
  constructor
  · intro h
    by_cases hc : c.needsRegion = true
    · cases hr : ws.session.region with
      | none =>
        rw [call_of_no_region tools ws hr hc] at h
        cases h
        exact .noRegion hc hr
      | some r => exact refusal_of_region tools ws hr hc h
    · cases c with
      | fill | replace | copy | cut => exact absurd rfl hc
      | paste site options =>
        change (ws.paste tools site options).2 = _ at h
        cases hu : ws.session.clipboard.used with
        | false =>
          rw [paste_of_unused tools hu] at h
          cases h
          exact .emptyClipboard hu
        | true =>
          cases hd : options.dryRun with
          | false =>
            obtain ⟨e', rfl, hf⟩ := (paste_error_iff tools hu hd).1 h
            exact .paste hu hd hf
          | true =>
            rw [paste_dry_ok tools hu hd] at h
            exact nomatch h
      | undo =>
        obtain ⟨hs, rfl⟩ := ws.undo_error_iff.1 h
        exact .nothingToUndo hs
      | redo =>
        obtain ⟨hs, rfl⟩ := ws.redo_error_iff.1 h
        exact .nothingToRedo hs
  · intro h
    cases h with
    | noRegion hc hr => rw [call_of_no_region tools ws hr hc]
    | emptyClipboard hu => exact congrArg Prod.snd (paste_of_unused tools hu)
    | nothingToUndo hs => exact ws.undo_error_iff.2 ⟨hs, rfl⟩
    | nothingToRedo hs => exact ws.redo_error_iff.2 ⟨hs, rfl⟩
    | fill hr hf => exact (fill_error_iff tools hr).2 ⟨_, rfl, hf⟩
    | replace hr hf => exact (replace_error_iff tools hr).2 ⟨_, rfl, hf⟩
    | paste hu hd hf => exact (paste_error_iff tools hu hd).2 ⟨_, rfl, hf⟩

/-! ## What they leave -/

/-- Nothing changed but what sampling keeps. -/
def Kept (ws ws' : Workspace R) : Prop := ∃ sampling, ws' = { ws with sampling }

omit [Radius R] in
theorem Kept.refl : ws.Kept ws := ⟨ws.sampling, rfl⟩

omit [Radius R] in
/-- A plan that fails is not written. -/
theorem perform_kept {dim : Int} {plan : Sampling Plan} {e : EditError}
    (h : (ws.perform dim plan).2 = .error e) : ws.Kept (ws.perform dim plan).1 := by
  unfold perform at h ⊢
  rcases hp : plan ws.sampling with ⟨e' | plan, t⟩ <;> rw [hp] at h
  · exact ⟨t, rfl⟩
  · exact nomatch h

/-- A call that fails keeps all but what sampling keeps. -/
theorem call_kept {c : Call} {e : EditError} (h : (ws.call tools c).2 = .error e) :
    ws.Kept (ws.call tools c).1 := by
  cases (call_error_iff tools ws).1 h with
  | noRegion hc hr =>
    rw [call_of_no_region tools ws hr hc]
    exact .refl ws
  | emptyClipboard hu =>
    unfold call
    dsimp only
    rw [paste_of_unused tools hu]
    exact .refl ws
  | nothingToUndo hs =>
    unfold call undo restored History.undo?
    dsimp only
    rw [hs]
    exact .refl ws
  | nothingToRedo hs =>
    unfold call redo restored History.redo?
    dsimp only
    rw [hs]
    exact .refl ws
  | fill hr _ =>
    unfold call fill at h ⊢
    dsimp only at h ⊢
    rw [hr] at h ⊢
    exact ws.perform_kept h
  | replace hr _ =>
    unfold call replace at h ⊢
    dsimp only at h ⊢
    rw [hr] at h ⊢
    exact ws.perform_kept h
  | paste hu hd _ =>
    obtain ⟨hsame, hleft⟩ := paste_performs tools hu hd
    have hfails := hsame.symm.trans h
    unfold call
    dsimp only
    rw [hleft _ hfails]
    exact ws.perform_kept hfails

/-- **A failed call changes nothing.** If a call fails, then world, session and canvas are what they
were, and it failed for one of the reasons there are: there is no region, the clipboard is empty,
there is nothing to undo or to redo, the mask cannot be read, or the walk breaks at some position. -/
theorem failed_call_changes_nothing {c : Call} {e : EditError}
    (h : (ws.call tools c).2 = .error e) :
    (ws.call tools c).1.world = ws.world ∧ (ws.call tools c).1.session = ws.session ∧
      (ws.call tools c).1.canvas = ws.canvas ∧ ws.Refusal tools c e := by
  obtain ⟨sampling, hws⟩ := call_kept tools ws h
  rw [hws]
  exact ⟨rfl, rfl, rfl, (call_error_iff tools ws).1 h⟩

/-- Stone is drawn for the first of two positions, dirt for the second, whose data value names an
unknown variable. -/
theorem failed_call_changes_nothing_late :
    let tools : EditTools := ⟨.withSeed .flat 0, .standard⟩
    let mix : Pattern := ⟨"stone,dirt:(depth)", .terms [
      ⟨.constant 1.0, .named (.ofName "minecraft:stone") .any⟩,
      ⟨.constant 1.0, .named (.ofName "minecraft:dirt") (.formula "depth")⟩]⟩
    let fresh : Session Float := .new .standard
    let ws : Workspace Float :=
      { session := { fresh with region := some (.ofBox .cuboid 0 ⟨.zero, ⟨1, 0, 0⟩⟩) }
        canvas := .blank
        world := .empty
        sampling := ⟨.empty, .ofList [0, 0xFFFFFFFFFFFFFFFF]⟩ }
    let e : EditError := .formula (.unknownVariable "depth")
    (ws.call tools (.fill mix)).2 = .error e ∧
      (ws.call tools (.fill mix)).1.world = ws.world ∧
      (ws.call tools (.fill mix)).1.session = ws.session ∧
      (ws.call tools (.fill mix)).1.canvas = ws.canvas ∧ ws.Refusal tools (.fill mix) e := by
  intro tools mix fresh ws e
  set r : Region Float := .ofBox .cuboid 0 ⟨.zero, ⟨1, 0, 0⟩⟩ with hr
  have hpositions : r.positions = [⟨0, 0, 0⟩, ⟨1, 0, 0⟩] := by decide +kernel
  have hfirst : (Plan.visit (ws.scene tools r) none mix r.box ⟨0, 0, 0⟩).answer
      ⟨(Draws.ofList [0, 0xFFFFFFFFFFFFFFFF]).word, 0⟩ =
        (.ok (some (⟨0, 0, 0⟩, .ofBlock (.ofName "minecraft:stone"))),
          ⟨(Draws.ofList [0, 0xFFFFFFFFFFFFFFFF]).word, 1⟩) := rfl
  have hdata : (Descriptor.dataValue tools.functions (.ofPosition ⟨1, 0, 0⟩ r.box)
      (.formula "depth")).answer ⟨(Draws.ofList [0, 0xFFFFFFFFFFFFFFFF]).word, 2⟩ =
        (.error (.unknownVariable "depth"), ⟨(Draws.ofList [0, 0xFFFFFFFFFFFFFFFF]).word, 2⟩) := by
    have hvalue : Expr.valueOf tools.functions (.ofPosition ⟨1, 0, 0⟩ r.box) "depth" =
        .error (.unknownVariable "depth") := by decide +kernel
    unfold Descriptor.dataValue
    dsimp only
    rw [answer_bind fun _ => Steady.pure _, answer_formula, hvalue]
  have hpick : (Pattern.pick (ws.scene tools r) (.ofPosition ⟨1, 0, 0⟩ r.box) [
      ⟨.constant 1.0, .named (.ofName "minecraft:stone") .any⟩,
      ⟨.constant 1.0, .named (.ofName "minecraft:dirt") (.formula "depth")⟩]).answer
      ⟨(Draws.ofList [0, 0xFFFFFFFFFFFFFFFF]).word, 1⟩ =
        (.ok (some ⟨.constant 1.0, .named (.ofName "minecraft:dirt") (.formula "depth")⟩),
          ⟨(Draws.ofList [0, 0xFFFFFFFFFFFFFFFF]).word, 2⟩) := rfl
  have hsecond : (Plan.visit (ws.scene tools r) none mix r.box ⟨1, 0, 0⟩).answer
      ⟨(Draws.ofList [0, 0xFFFFFFFFFFFFFFFF]).word, 1⟩ =
        (.error (.unknownVariable "depth"), ⟨(Draws.ofList [0, 0xFFFFFFFFFFFFFFFF]).word, 2⟩) := by
    have hsample : (mix.sampleIn (ws.scene tools r) r.box ⟨1, 0, 0⟩).answer
        ⟨(Draws.ofList [0, 0xFFFFFFFFFFFFFFFF]).word, 1⟩ =
          (.error (.unknownVariable "depth"),
            ⟨(Draws.ofList [0, 0xFFFFFFFFFFFFFFFF]).word, 2⟩) := by
      unfold Pattern.sampleIn Pattern.sample
      dsimp only [mix]
      rw [answer_bind fun t => by
        cases t with
        | none => exact Steady.pure _
        | some t => exact t.descriptor.resolve_steady _ _, hpick]
      dsimp only [Descriptor.resolve]
      rw [answer_bind fun _ => Steady.pure _]
      have hscene : (ws.scene tools r).functions = tools.functions := rfl
      rw [hscene, hdata]
    rw [Plan.answer_visit]
    unfold Plan.maskValue
    dsimp only
    rw [hsample]
  have hfails : ws.Refusal tools (.fill mix) e :=
    .fill rfl (.inr ⟨fun _ h => (nomatch h),
      [⟨0, 0, 0⟩], ⟨1, 0, 0⟩, [], _, _, hpositions, .cons hfirst (.nil _), congrArg Prod.fst hsecond⟩)
  have h : (ws.call tools (.fill mix)).2 = .error e := (call_error_iff tools ws).2 hfails
  exact ⟨h, failed_call_changes_nothing tools ws h⟩

end Workspace

end VoxelEdit
