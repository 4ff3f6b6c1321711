import Mathlib.Data.Set.Card
import VoxelEdit.Proofs.BoxWalk
import VoxelEdit.Proofs.SteadySampling
import VoxelEdit.Proofs.WorldView

/-!
# What fill and replace write

An edit samples the positions of the region that are wanted and that the mask admits, in the order
of the walk, and writes what it found there.

* `Plan.admits`: whether a mask admits a position, told by its text alone.
* `Samples.admitted`: a walk that asks the mask at each position samples those it admits.
* `Workspace.Paints`: what an edit leaves: at each position what was found there, and elsewhere
  what was there.
* `Workspace.fill_replace_exact`: **fill and replace paint the region, the whole of it or what
  matched before the edit.**
-/

namespace VoxelEdit

open Sampling

/-! ## Masks -/

namespace Plan

variable (fs : Functions) (mask : Option String) (b : Box)

/-- The answer of a mask at a position of a box; no mask is an answer everywhere. -/
def maskValue (p : Pos) : Except EvalError Bool :=
  match mask with
  | none => .ok true
  | some text => do return (← Expr.valueOf fs (.ofPosition p b) text) != 0.0

/-- Whether a mask has a value at a position of a box, and one that is not zero. -/
def admits (p : Pos) : Bool :=
  match maskValue fs mask b p with
  | .ok v => v
  | .error _ => false

theorem allows_steady (vars : Variables) : Steady (allows fs mask vars) := by
  cases mask with
  | none => exact Steady.pure _
  | some text => exact (formula_steady fs vars text).bind fun _ => Steady.pure _

theorem answer_allows (p : Pos) (d : Draws) :
    (allows fs mask (.ofPosition p b)).answer d = (maskValue fs mask b p, d) := by
  cases mask with
  | none => rfl
  | some text =>
    unfold allows maskValue
    dsimp only
    rw [answer_bind fun _ => Steady.pure _, answer_formula]
    cases Expr.valueOf fs (.ofPosition p b) text <;> rfl

/-- Reading a mask draws nothing. -/
theorem checkMask_draws (s : SampleState) : (checkMask mask s).2.draws = s.draws := by
  cases mask with
  | none => rfl
  | some text =>
    obtain ⟨-, hd⟩ := compile_apply text s
    unfold checkMask
    dsimp only
    rw [bind_apply]
    rcases hc : compile text s with ⟨_ | _, t⟩ <;> rw [hc] at hd <;> exact hd

end Plan

/-! ## Walks that ask a mask -/

section Walks

variable {R : Type} (scene : Scene R) (mask : Option String) (pattern : Pattern) (b : Box)

/-- The sample of a pattern at a position of a box. -/
def Pattern.sampleIn (p : Pos) : Sampling (Option Entry) :=
  pattern.sample scene (.ofPosition p b) p

/-- What a walk does at a position: the sample there, if the mask lets it through. -/
def Plan.visit (p : Pos) : Sampling (Option (Pos × Entry)) := do
  if ← allows scene.functions mask (.ofPosition p b) then
    return (← pattern.sampleIn scene b p).map fun e => (p, e)
  else return none

theorem Plan.visit_steady (p : Pos) : Steady (visit scene mask pattern b p) := by
  refine (allows_steady _ _ _).bind fun v => ?_
  cases v with
  | false => exact Steady.pure _
  | true => exact (pattern.sample_steady _ _ _).bind fun _ => Steady.pure _

/-- **What a visit answers.** A position that the mask leaves out finds nothing and draws nothing;
at one that it lets through the pattern is sampled. -/
theorem Plan.answer_visit (p : Pos) (d : Draws) :
    (visit scene mask pattern b p).answer d = match maskValue scene.functions mask b p with
      | .error e => (.error e, d)
      | .ok false => (.ok none, d)
      | .ok true => match (pattern.sampleIn scene b p).answer d with
        | (.ok e, d') => (.ok (e.map fun e => (p, e)), d')
        | (.error e, d') => (.error e, d') := by
  unfold visit
  rw [answer_bind fun v => by
    cases v with
    | false => exact Steady.pure _
    | true => exact (pattern.sample_steady _ _ _).bind fun _ => Steady.pure _,
    answer_allows]
  rcases maskValue scene.functions mask b p with e | v
  · rfl
  · cases v with
    | false => rfl
    | true =>
      dsimp only
      rw [if_pos rfl, answer_bind fun _ => Steady.pure _]
      rcases (pattern.sampleIn scene b p).answer d with ⟨_ | _, _⟩ <;> rfl

/-- A visit that answers: the mask leaves the position out, or the pattern says what is there. -/
theorem Plan.visit_ok {p : Pos} {d d' : Draws} {o : Option (Pos × Entry)}
    (h : (visit scene mask pattern b p).answer d = (.ok o, d')) :
    (admits scene.functions mask b p = false ∧ o = none ∧ d' = d) ∨
      ∃ e, admits scene.functions mask b p = true ∧ o = e.map (fun e => (p, e)) ∧
        (pattern.sampleIn scene b p).answer d = (.ok e, d') := by
  rw [answer_visit] at h
  unfold admits
  rcases hm : maskValue scene.functions mask b p with e | v <;> rw [hm] at h
  · exact nomatch (Prod.mk.inj h).1
  · cases v with
    | false =>
      obtain ⟨ho, hd⟩ := Prod.mk.inj h
      exact .inl ⟨rfl, (Except.ok.inj ho).symm, hd.symm⟩
    | true =>
      dsimp only at h
      rcases hs : (pattern.sampleIn scene b p).answer d with ⟨e | e, d''⟩ <;> rw [hs] at h
      · exact nomatch (Prod.mk.inj h).1
      · obtain ⟨ho, rfl⟩ := Prod.mk.inj h
        exact .inr ⟨e, rfl, (Except.ok.inj ho).symm, rfl⟩

/-- **A walk samples what the mask admits**, in order and from the same draws. -/
theorem Samples.admitted {d d' : Draws} {ps : List Pos} {found : List (Option (Pos × Entry))}
    (h : Samples (Plan.visit scene mask pattern b) d ps found d') :
    ∃ es, Samples (pattern.sampleIn scene b) d
        (ps.filter (Plan.admits scene.functions mask b)) es d' ∧
      found.reduceOption = ((ps.filter (Plan.admits scene.functions mask b)).zip es).filterMap
        fun x => x.2.map fun e => (x.1, e) := by
  induction h with
  | nil d => exact ⟨[], .nil d, rfl⟩
  | cons ha _ ih =>
    obtain ⟨es, hes, hfound⟩ := ih
    rcases Plan.visit_ok scene mask pattern b ha with ⟨hp, rfl, rfl⟩ | ⟨e, hp, rfl, he⟩
    · rw [List.filter_cons_of_neg (by simp [hp])]
      exact ⟨es, hes, by simpa using hfound⟩
    · rw [List.filter_cons_of_pos hp]
      refine ⟨e :: es, .cons he hes, ?_⟩
      cases e <;> simp [hfound]

/-- **A walk answers** if the mask has a value everywhere and the pattern can be sampled at what it
admits. -/
theorem Samples.visited {d d' : Draws} {ps : List Pos} {es : List (Option Entry)}
    (hm : ∀ p ∈ ps, ∃ v, Plan.maskValue scene.functions mask b p = .ok v)
    (h : Samples (pattern.sampleIn scene b) d
      (ps.filter (Plan.admits scene.functions mask b)) es d') :
    ∃ found, Samples (Plan.visit scene mask pattern b) d ps found d' := by
  induction ps generalizing d es with
  | nil =>
    cases h
    exact ⟨[], .nil d'⟩
  | cons p ps ih =>
    obtain ⟨v, hv⟩ := hm p List.mem_cons_self
    have hrest := fun q hq => hm q (List.mem_cons_of_mem p hq)
    have hadmits : Plan.admits scene.functions mask b p = v := by
      unfold Plan.admits
      rw [hv]
    have hvisit := Plan.answer_visit scene mask pattern b p d
    rw [hv] at hvisit
    cases v with
    | false =>
      rw [List.filter_cons_of_neg (by simp [hadmits])] at h
      obtain ⟨found, hfound⟩ := ih hrest h
      exact ⟨none :: found, .cons hvisit hfound⟩
    | true =>
      rw [List.filter_cons_of_pos hadmits] at h
      cases h with
      | cons he hes =>
        obtain ⟨found, hfound⟩ := ih hrest hes
        dsimp only at hvisit
        rw [he] at hvisit
        exact ⟨_, .cons hvisit hfound⟩

/-- What a list of different items gave, as a function. -/
theorem exists_map_eq {α β : Type} {as : List α} {bs : List (Option β)} (hn : as.Nodup)
    (hl : as.length = bs.length) :
    ∃ f : α → Option β, as.map f = bs ∧ ∀ a, a ∉ as → f a = none := by
  classical
  induction as generalizing bs with
  | nil =>
    have hnil := List.length_eq_zero_iff.1 hl.symm
    exact ⟨fun _ => none, hnil.symm, fun _ _ => rfl⟩
  | cons a as ih =>
    obtain ⟨b, bs, rfl⟩ := List.exists_cons_of_length_eq_add_one hl.symm
    obtain ⟨ha, hn⟩ := List.nodup_cons.1 hn
    obtain ⟨f, hf, hout⟩ := ih hn (by simpa using hl)
    refine ⟨fun x => if x = a then b else f x, ?_, ?_⟩
    · rw [List.map_cons, if_pos rfl, ← hf]
      congr 1
      refine List.map_congr_left fun x hx => if_neg ?_
      rintro rfl
      exact ha hx
    · intro x hx
      obtain ⟨hxa, hxas⟩ := not_or.1 (mt List.mem_cons.2 hx)
      exact (if_neg hxa).trans (hout x hxas)

end Walks

/-! ## What a plan of findings writes -/

section Findings

variable {ps : List Pos} {found : Pos → Option Entry}

/-- The plan of what was found at positions. -/
def Plan.ofFindings (ps : List Pos) (found : Pos → Option Entry) : Plan :=
  ps.filterMap fun p => (found p).map fun e => (p, e)

theorem Plan.mem_ofFindings {x : Pos × Entry} :
    x ∈ ofFindings ps found ↔ x.1 ∈ ps ∧ found x.1 = some x.2 := by
  unfold ofFindings
  rw [List.mem_filterMap]
  constructor
  · rintro ⟨p, hp, hx⟩
    obtain ⟨e, he, rfl⟩ := Option.map_eq_some_iff.1 hx
    exact ⟨hp, he⟩
  · rintro ⟨hp, he⟩
    exact ⟨x.1, hp, by rw [he]; rfl⟩

theorem Plan.positions_ofFindings :
    (ofFindings ps found).map Prod.fst = ps.filter fun p => (found p).isSome := by
  induction ps with
  | nil => rfl
  | cons p ps ih =>
    unfold ofFindings at ih ⊢
    cases hp : found p with
    | none =>
      rw [List.filterMap_cons_none (by rw [hp]; rfl), List.filter_cons_of_neg (by simp [hp]), ih]
    | some e =>
      rw [List.filterMap_cons_some (b := (p, e)) (by rw [hp]; rfl),
        List.filter_cons_of_pos (by simp [hp]), List.map_cons, ih]

/-- As many writes as positions where something was found. -/
theorem Plan.length_ofFindings (hn : ps.Nodup) (hout : ∀ p, p ∉ ps → found p = none) :
    (ofFindings ps found).length = {p | (found p).isSome}.ncard := by
  classical
  have hset : {p | (found p).isSome} =
      ((ps.filter fun p => (found p).isSome).toFinset : Set Pos) := by
    ext p
    simp only [Set.mem_ofPred_eq, List.coe_toFinset, List.mem_filter]
    refine ⟨fun h => ⟨?_, h⟩, fun h => h.2⟩
    by_contra hp
    rw [hout p hp] at h
    exact nomatch h
  rw [hset, Set.ncard_coe_finset, List.toFinset_card_of_nodup (hn.filter _),
    ← positions_ofFindings, List.length_map]

/-- What a world shows after the findings are written. -/
theorem Plan.get_writeAll_ofFindings {w : World} (hw : w.Free) {dim : Int} {mode : UpdateMode}
    (hout : ∀ p, p ∉ ps → found p = none) (t : Site) :
    (w.writeAll dim (ofFindings ps found) mode).1.get t =
      if t.dim = dim then ((found t.pos).map Entry.kept).getD (w.get t) else w.get t := by
  set f : Pos → Entry := fun p => ((found p).map Entry.kept).getD .air with hf
  have hplan : ∀ x ∈ ofFindings ps found, x.2.kept = f x.1 := by
    intro x hx
    simp [hf, (mem_ofFindings.1 hx).2]
  rw [World.get_writeAll hw hplan, positions_ofFindings]
  by_cases hd : t.dim = dim
  · rw [if_pos hd]
    cases hp : found t.pos with
    | none => rw [if_neg (by simp [hp])]; rfl
    | some e =>
      have hmem : t.pos ∈ ps := by
        by_contra h
        rw [hout _ h] at hp
        exact nomatch hp
      rw [if_pos ⟨hd, by simp [hmem, hp]⟩, hf]
      simp [hp]
  · rw [if_neg hd, if_neg fun h => hd h.1]

end Findings

/-! ## Edits -/

namespace Workspace

variable {R : Type} [Radius R] (tools : EditTools) (ws : Workspace R) (r : Region R)

/-- The positions of a region that are wanted and that the mask admits, in order. -/
def picked (wanted : Pos → Bool) : List Pos :=
  r.positions.filter fun p =>
    wanted p && Plan.admits tools.functions ws.session.mask r.box p

/-- **What an edit leaves.** At each picked position the pattern is sampled, in the order of the
walk and from one stream of draws, in the scene before the edit; `found` is what the samples say.
The edit counts the positions where an entry was found. The world shows the entries there, as a
world keeps them, and everywhere else what it showed. -/
structure Paints (wanted : Pos → Bool) (pattern : Pattern) (ws' : Workspace R) (n : Nat)
    (found : Pos → Option Entry) : Prop where
  sampled : Samples (pattern.sampleIn (ws.scene tools r) r.box) ws.sampling.draws
    (ws.picked tools r wanted) ((ws.picked tools r wanted).map found) ws'.sampling.draws
  nowhere_else : ∀ p, p ∉ ws.picked tools r wanted → found p = none
  count : n = {p | (found p).isSome}.ncard
  view : ∀ t, ws'.world.get t =
    if t.dim = r.dim then ((found t.pos).map Entry.kept).getD (ws.world.get t) else ws.world.get t

variable {ws}

/-- A plan of samples that is performed paints. -/
theorem perform_paints (hw : ws.world.Free) (wanted : Pos → Bool) (pattern : Pattern) {n : Nat}
    (h : (ws.perform r.dim (Plan.ofPattern (ws.scene tools r) ws.session.mask pattern r.box
      (r.positions.filter wanted))).2 = .ok n) :
    ∃ found, ws.Paints tools r wanted pattern (ws.perform r.dim (Plan.ofPattern (ws.scene tools r)
      ws.session.mask pattern r.box (r.positions.filter wanted))).1 n found := by
  have hpicked : (r.positions.filter wanted).filter
      (Plan.admits tools.functions ws.session.mask r.box) = ws.picked tools r wanted := by
    rw [List.filter_filter]
    exact List.filter_congr fun p _ => Bool.and_comm _ _
  have hnodup : (ws.picked tools r wanted).Nodup :=
    (r.box.positions_pairwise.nodup.filter _).filter _
  unfold perform at h ⊢
  rcases hplan : Plan.ofPattern (ws.scene tools r) ws.session.mask pattern r.box
    (r.positions.filter wanted) ws.sampling with ⟨e | plan, t⟩ <;> rw [hplan] at h
  · exact nomatch h
  -- the mask is read first, which draws nothing
  unfold Plan.ofPattern at hplan
  rw [bind_apply] at hplan
  have hdraws := Plan.checkMask_draws ws.session.mask ws.sampling
  rcases hmask : Plan.checkMask ws.session.mask ws.sampling with ⟨e | _, s⟩ <;>
    rw [hmask] at hplan hdraws
  · exact nomatch (Prod.mk.inj hplan).1
  -- then the positions are visited
  obtain ⟨outs, hvisits, rfl⟩ := Plan.gather_samples
    (Plan.visit_steady (ws.scene tools r) ws.session.mask pattern r.box) _ _ hplan
  obtain ⟨es, hes, hreduce⟩ := hvisits.admitted
  have hfunctions : (ws.scene tools r).functions = tools.functions := rfl
  rw [hfunctions, hpicked, hdraws] at hes
  rw [hfunctions, hpicked] at hreduce
  obtain ⟨found, rfl, hout⟩ := exists_map_eq hnodup hes.length_eq
  have hwrites : [].reverse ++ outs.reduceOption =
      Plan.ofFindings (ws.picked tools r wanted) found := by
    have hzip := List.zip_map' (f := id) (g := found) (l := ws.picked tools r wanted)
    rw [List.map_id] at hzip
    rw [hreduce, hzip, List.filterMap_map]
    rfl
  rw [hwrites] at h ⊢
  have hcount : (ws.world.writeAll r.dim (Plan.ofFindings (ws.picked tools r wanted) found)
      ws.session.mode).2 = (Plan.ofFindings (ws.picked tools r wanted) found).length :=
    (World.writeAll_count hw _ _).1
  refine ⟨found, hes, hout, ?_, fun t => ?_⟩
  · rw [← Plan.length_ofFindings hnodup hout, ← hcount]
    exact (Except.ok.inj h).symm
  · exact Plan.get_writeAll_ofFindings hw hout t

omit [Radius R] in
/-- A plan of samples is performed if the mask can be read and has a value at every position, and
the pattern can be sampled at those that it admits. -/
theorem perform_done (dim : Int) (pattern : Pattern) {ps : List Pos} {es : List (Option Entry)}
    {d' : Draws} (hread : ∀ text, ws.session.mask = some text → (Expr.parse text).isOk)
    (hm : ∀ p ∈ ps, ∃ v, Plan.maskValue tools.functions ws.session.mask r.box p = .ok v)
    (hs : Samples (pattern.sampleIn (ws.scene tools r) r.box) ws.sampling.draws
      (ps.filter (Plan.admits tools.functions ws.session.mask r.box)) es d') :
    ∃ n, (ws.perform dim
      (Plan.ofPattern (ws.scene tools r) ws.session.mask pattern r.box ps)).2 = .ok n := by
  have hcheck : (Plan.checkMask ws.session.mask ws.sampling).1 = .ok () := by
    cases hmask : ws.session.mask with
    | none => rfl
    | some text =>
      have he := hread text hmask
      obtain ⟨hc, -⟩ := compile_apply text ws.sampling
      unfold Plan.checkMask
      dsimp only
      rw [bind_apply]
      rcases hx : compile text ws.sampling with ⟨e | e, t⟩
      · rw [hx] at hc
        rw [← hc] at he
        exact nomatch he
      · rfl
  have hdraws := Plan.checkMask_draws ws.session.mask ws.sampling
  obtain ⟨found, hfound⟩ := hs.visited (ws.scene tools r) ws.session.mask pattern r.box hm
  obtain ⟨plan, t, hgather⟩ := Plan.gather_of_samples
    (Plan.visit_steady (ws.scene tools r) ws.session.mask pattern r.box) hfound [] hdraws
  have hplan : Plan.ofPattern (ws.scene tools r) ws.session.mask pattern r.box ps ws.sampling =
      (.ok plan, t) := by
    unfold Plan.ofPattern
    rw [bind_apply]
    rcases hx : Plan.checkMask ws.session.mask ws.sampling with ⟨x, s⟩
    rw [hx] at hcheck hgather
    subst hcheck
    exact hgather
  unfold perform
  rw [hplan]
  exact ⟨_, rfl⟩

/-- A fill that succeeds paints the whole region. -/
theorem fill_paints (hw : ws.world.Free) {r : Region R} (hr : ws.session.region = some r)
    (pattern : Pattern) {n : Nat} (h : (ws.fill tools pattern).2 = .ok n) :
    ∃ found, ws.Paints tools r (fun _ => true) pattern (ws.fill tools pattern).1 n found := by
  have hall : r.positions = r.positions.filter fun _ => true := by simp
  unfold fill at h ⊢
  rw [hr] at h ⊢
  dsimp only at h ⊢
  rw [hall] at h ⊢
  exact perform_paints tools r hw _ pattern h

/-- **Fill and replace write exactly what they should.** An edit of a region that succeeds paints
the region: a fill all of it, a replacement those of its positions whose block matched before the
edit. -/
theorem fill_replace_exact (hw : ws.world.Free) {r : Region R} (hr : ws.session.region = some r)
    (pattern : Pattern) :
    (∀ n, (ws.fill tools pattern).2 = .ok n →
      ∃ found, ws.Paints tools r (fun _ => true) pattern (ws.fill tools pattern).1 n found) ∧
    ∀ matched n, (ws.replace tools matched pattern).2 = .ok n →
      ∃ found, ws.Paints tools r
        (fun p => matched.admits tools.registry (ws.world.get ⟨r.dim, p⟩).block) pattern
        (ws.replace tools matched pattern).1 n found := by
  refine ⟨fun n h => fill_paints tools hw hr pattern h, fun matched n h => ?_⟩
  unfold replace at h ⊢
  rw [hr] at h ⊢
  exact perform_paints tools r hw _ pattern h

/-- Three positions are filled with stone or dirt where the mask says `x < 2`: the first draw
gives stone, the second dirt, and the third position is left alone. -/
theorem fill_replace_exact_mixed :
    let tools : EditTools := ⟨.withSeed .flat 0, .standard⟩
    let mix : Pattern := ⟨"stone,dirt", .terms [
      ⟨.constant 1.0, .named (.ofName "minecraft:stone") .any⟩,
      ⟨.constant 1.0, .named (.ofName "minecraft:dirt") .any⟩]⟩
    let r : Region Float := .ofBox .cuboid 0 ⟨.zero, ⟨2, 0, 0⟩⟩
    let fresh : Session Float := .new .standard
    let ws : Workspace Float :=
      { session := { fresh with region := some r, mask := some "x < 2" }
        canvas := .blank
        world := .empty
        sampling := ⟨.empty, .ofList [0, 0xFFFFFFFFFFFFFFFF]⟩ }
    ws.world.Free ∧ ws.session.region = some r ∧ ∃ n, (ws.fill tools mix).2 = .ok n ∧
      ∃ found, ws.Paints tools r (fun _ => true) mix (ws.fill tools mix).1 n found := by
  intro tools mix r fresh ws
  have hpositions : r.positions = [⟨0, 0, 0⟩, ⟨1, 0, 0⟩, ⟨2, 0, 0⟩] := by decide +kernel
  have hmask : ∀ p ∈ r.positions,
      Plan.maskValue tools.functions (some "x < 2") r.box p = .ok (decide (p.x < 2)) := by
    rw [hpositions]
    decide +kernel
  have hpicked : r.positions.filter (Plan.admits tools.functions (some "x < 2") r.box) =
      [⟨0, 0, 0⟩, ⟨1, 0, 0⟩] := by
    rw [hpositions]
    decide +kernel
  have hfirst (p : Pos) : (mix.sampleIn (ws.scene tools r) r.box p).answer
      ⟨(Draws.ofList [0, 0xFFFFFFFFFFFFFFFF]).word, 0⟩ =
        (.ok (some (.ofBlock (.ofName "minecraft:stone"))),
          ⟨(Draws.ofList [0, 0xFFFFFFFFFFFFFFFF]).word, 1⟩) := rfl
  have hsecond (p : Pos) : (mix.sampleIn (ws.scene tools r) r.box p).answer
      ⟨(Draws.ofList [0, 0xFFFFFFFFFFFFFFFF]).word, 1⟩ =
        (.ok (some (.ofBlock (.ofName "minecraft:dirt"))),
          ⟨(Draws.ofList [0, 0xFFFFFFFFFFFFFFFF]).word, 2⟩) := rfl
  have hsamples := Samples.cons (hfirst ⟨0, 0, 0⟩) (.cons (hsecond ⟨1, 0, 0⟩) (.nil _))
  have hread : ∀ text, ws.session.mask = some text → (Expr.parse text).isOk := by
    rintro _ ⟨⟩
    decide +kernel
  have hfill : ∃ n, (ws.fill tools mix).2 = .ok n := by
    unfold fill
    exact perform_done tools r r.dim mix hread
      (fun p hp => ⟨_, hmask p hp⟩) (hpicked ▸ hsamples)
  obtain ⟨n, hn⟩ := hfill
  have hfree : ws.world.Free := World.Made.empty.free
  exact ⟨hfree, rfl, n, hn, (fill_replace_exact tools hfree rfl mix).1 n hn⟩

end Workspace

end VoxelEdit
