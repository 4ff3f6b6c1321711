import Mathlib
import VoxelEdit.Proofs.ParsedTerms
import VoxelEdit.Proofs.SteadySampling

/-!
# Samples without formulas kept

What a pattern places, with every formula read from its text at the time when it is used:
`Pattern.pickOf` and `Pattern.sampleOf`. Sampling keeps formulas that it has read, but the answer
is this one (`pick_eq`, `sample_eq`).

* `Sampling.Computes`: whatever has been kept, the answer is a given one, and nothing is drawn.
* `Faultless`: an answer other than a fault of syntax. Values of formulas are faultless once the
  formula has been read (`Readable.valueOf`), and a formula of a pattern has been read.
* `Pattern.sample_faultless`: a pattern that was read never fails on syntax.
-/

namespace VoxelEdit

variable {α β : Type} {R : Type} (scene : Scene R) (fs : Functions) (vars : Variables)

/-! ## Values from texts -/

/-- The value of a weight. -/
def Weight.valueOf : Weight → Except EvalError Float
  | .constant v => .ok (if v > 0.0 then v else 0.0)
  | .formula text => do
    let v ← Expr.valueOf fs vars text
    return if v > 0.0 then v else 0.0

namespace Descriptor

/-- The data value that a specification places. -/
def dataOf : DataSpec → Except EvalError UInt16
  | .any => .ok 0
  | .value v => .ok v
  | .formula text => do
    let v := rounded (← Expr.valueOf fs vars text)
    return (max 0 (min (Number.maxWord16 : Int) v)).toNat.toUInt16

/-- The entry that a candidate stands for. -/
def entryOf : Descriptor → Except EvalError (Option Entry)
  | .named block data => do
    let data ← dataOf scene.functions vars data
    return some (.ofBlock { block with data })
  | .legacy id data => do
    let data ← dataOf scene.functions vars data
    return (scene.registry.byLegacy? id data).map .ofBlock
  | .legacyFormula text data => do
    let id := rounded (← Expr.valueOf scene.functions vars text)
    let data ← dataOf scene.functions vars data
    if Number.minInt32 ≤ id && id ≤ Number.maxInt32 then
      return (scene.registry.byLegacy? id data).map .ofBlock
    else return none
  | .runtime id => .ok ((scene.registry.byRuntime? id).map .ofBlock)
  | .runtimeFormula text => do
    let id := rounded (← Expr.valueOf scene.functions vars text)
    if 0 ≤ id && id ≤ Number.maxWord32 then
      return (scene.registry.byRuntime? id.toNat).map .ofBlock
    else return none
  | .tree entry => .ok (some entry)

end Descriptor

namespace Pattern

/-- The term that a draw falls on, by the weights of all, and the draws that are left. -/
def drawOf (terms : List Term) (d : Draws) : Except EvalError (Option Term) × Draws :=
  match terms.mapM fun t => t.weight.valueOf scene.functions vars with
  | .error e => (.error e, d)
  | .ok weights =>
    (.ok ((Weighted.index? minTotal weights d.next.1).bind fun i => terms[i]?), d.next.2)

/-- The term that is picked, and the draws that are left: nothing is drawn for a single term of
constant weight. -/
def pickOf (terms : List Term) (d : Draws) : Except EvalError (Option Term) × Draws :=
  match terms with
  | [⟨.constant w, b⟩] => (.ok (if w ≥ minTotal then some ⟨.constant w, b⟩ else none), d)
  | terms => drawOf scene vars terms d

/-- The entry that a pattern places at a position, and the draws that are left. -/
def sampleOf (pattern : Pattern) (p : Pos) (d : Draws) : Except EvalError (Option Entry) × Draws :=
  match pattern.source with
  | .clipboard tiling =>
    match scene.clipboard with
    | some c => (.ok (if c.used then c.getTiled? (p - tiling.bias scene.region) else none), d)
    | none => (.ok none, d)
  | .terms terms =>
    match pickOf scene vars terms d with
    | (.ok (some term), rest) => (term.descriptor.entryOf scene vars, rest)
    | (.ok none, rest) => (.ok none, rest)
    | (.error e, rest) => (.error e, rest)

end Pattern

/-! ## The cache does not show -/

namespace Sampling

/-- A computation that draws nothing and has one answer, whatever has been kept. -/
def Computes (x : Sampling α) (y : Except EvalError α) : Prop :=
  ∀ s, (x s).1 = y ∧ (x s).2.draws = s.draws

theorem Computes.pure (a : α) : Computes (Pure.pure a) (.ok a) := fun _ => ⟨rfl, rfl⟩

theorem Computes.bind {x : Sampling α} {y : Except EvalError α} {f : α → Sampling β}
    {g : α → Except EvalError β} (hx : Computes x y) (hf : ∀ a, Computes (f a) (g a)) :
    Computes (x >>= f) (y >>= g) := by
  intro s
  obtain ⟨hanswer, hdraws⟩ := hx s
  rw [bind_apply]
  rcases hs : x s with ⟨_ | a, t⟩ <;> rw [hs] at hanswer hdraws <;> subst hanswer
  · exact ⟨rfl, hdraws⟩
  · exact ⟨(hf a t).1, (hf a t).2.trans hdraws⟩

theorem formula_computes (text : String) :
    Computes (formula fs vars text) (Expr.valueOf fs vars text) := by
  have hcompile : Computes (compile text) (Expr.parse text) := compile_apply text
  exact hcompile.bind fun e s => ⟨rfl, rfl⟩

theorem Computes.mapM {f : α → Sampling β} {g : α → Except EvalError β}
    (hf : ∀ a, Computes (f a) (g a)) (as : List α) : Computes (as.mapM f) (as.mapM g) := by
  induction as with
  | nil => exact .pure []
  | cons a as ih =>
    rw [List.mapM_cons, List.mapM_cons]
    exact (hf a).bind fun b => ih.bind fun bs => .pure (b :: bs)

end Sampling

open Sampling

theorem Weight.eval_computes (w : Weight) : Computes (w.eval fs vars) (w.valueOf fs vars) := by
  cases w with
  | constant v => exact .pure _
  | formula text => exact (formula_computes fs vars text).bind fun v => .pure _

namespace Descriptor

theorem dataValue_computes (data : DataSpec) :
    Computes (dataValue fs vars data) (dataOf fs vars data) := by
  cases data with
  | any | value v => exact .pure _
  | formula text => exact (formula_computes fs vars text).bind fun v => .pure _

/-- **The entry of a candidate**, from the cache and from the texts. -/
theorem resolve_computes (d : Descriptor) : Computes (d.resolve scene vars) (d.entryOf scene vars) := by
  cases d with
  | named block data | legacy id data =>
    exact (dataValue_computes _ vars data).bind fun v => .pure _
  | legacyFormula text data =>
    refine (formula_computes _ vars text).bind fun v => ?_
    refine (dataValue_computes _ vars data).bind fun v => ?_
    split <;> exact .pure _
  | runtime id | tree entry => exact .pure _
  | runtimeFormula text =>
    refine (formula_computes _ vars text).bind fun v => ?_
    dsimp only
    split <;> exact .pure _

end Descriptor

namespace Pattern

theorem pickOf_eq_drawOf {terms : List Term} (h : ∀ w b, terms = [⟨.constant w, b⟩] → False)
    (d : Draws) : pickOf scene vars terms d = drawOf scene vars terms d := by
  unfold pickOf
  split
  · exact absurd rfl (h _ _)
  · rfl

/-- **A pick draws from the values of the texts.** -/
theorem pick_eq (terms : List Term) (s : SampleState) :
    ((pick scene vars terms s).1, (pick scene vars terms s).2.draws) =
      pickOf scene vars terms s.draws := by
  unfold pick
  split
  · rfl
  · rename_i hother
    obtain ⟨hanswer, hdraws⟩ :=
      Computes.mapM (fun t : Term => t.weight.eval_computes scene.functions vars) terms s
    rw [pickOf_eq_drawOf scene vars hother, drawOf, ← hanswer, ← hdraws, bind_apply]
    rcases terms.mapM (fun t : Term => t.weight.eval scene.functions vars) s with ⟨_ | ws, t⟩ <;> rfl

/-- **A sample is made from the values of the texts.** -/
theorem sample_eq (pattern : Pattern) (p : Pos) (s : SampleState) :
    ((pattern.sample scene vars p s).1, (pattern.sample scene vars p s).2.draws) =
      pattern.sampleOf scene vars p s.draws := by
  unfold sample sampleOf
  cases pattern.source with
  | clipboard tiling =>
    dsimp only
    cases scene.clipboard <;> rfl
  | terms terms =>
    have hpick := pick_eq scene vars terms s
    dsimp only
    rw [bind_apply, ← hpick]
    rcases pick scene vars terms s with ⟨_ | _ | term, t⟩
    · rfl
    · rfl
    · exact Prod.ext (term.descriptor.resolve_computes scene vars t).1
        (term.descriptor.resolve_computes scene vars t).2

end Pattern

/-! ## Faults of syntax -/

/-- An answer that is no fault of syntax. -/
def Faultless (x : Except EvalError α) : Prop := ∀ pos fault, x ≠ .error (.malformed pos fault)

theorem Faultless.ok (a : α) : Faultless (.ok a) := fun _ _ => nofun

/-- An error may be one of any other computation. -/
theorem Faultless.error {e : EvalError} (h : Faultless (.error e : Except EvalError α)) :
    Faultless (.error e : Except EvalError β) :=
  fun pos fault heq => h pos fault (congrArg Except.error (Except.error.inj heq))

theorem Faultless.bind {x : Except EvalError α} {f : α → Except EvalError β} (hx : Faultless x)
    (hf : ∀ a, Faultless (f a)) : Faultless (x >>= f) := by
  cases x with
  | error e => exact hx.error
  | ok a => exact hf a

theorem Faultless.mapM {f : α → Except EvalError β} {as : List α} (hf : ∀ a ∈ as, Faultless (f a)) :
    Faultless (as.mapM f) := by
  induction as with
  | nil => exact .ok []
  | cons a as ih =>
    obtain ⟨ha, has⟩ := List.forall_mem_cons.1 hf
    rw [List.mapM_cons]
    exact ha.bind fun b => (ih has).bind fun bs => .ok _

theorem Functions.call_faultless (name : String) (args : List Float) :
    Faultless (fs.call name args) := by
  unfold call
  split
  · exact .ok _
  · split
    · exact .ok _
    · exact fun _ _ => nofun
  · split
    · exact .ok _
    · exact fun _ _ => nofun
  · exact fun _ _ => nofun

namespace Expr

mutual

/-- Evaluating a tree meets no fault of syntax. -/
theorem eval_faultless : (e : Expr) → Faultless (e.eval vars fs)
  | .number v => .ok v
  | .variable name => by
    unfold eval
    split
    · exact .ok _
    · exact fun _ _ => nofun
  | .neg e => (eval_faultless e).bind fun _ => .ok _
  | .not e => (eval_faultless e).bind fun _ => .ok _
  | .binary op a b => (eval_faultless a).bind fun _ => (eval_faultless b).bind fun _ => .ok _
  | .call name args => (evalAll_faultless args).bind fun vs => fs.call_faultless name vs

theorem evalAll_faultless : (es : List Expr) → Faultless (evalAll vars fs es)
  | [] => .ok []
  | e :: es => (eval_faultless e).bind fun _ => (evalAll_faultless es).bind fun _ => .ok _

end

end Expr

theorem Readable.valueOf {texts : List String} (h : Readable texts) {text : String}
    (hmem : text ∈ texts) : Faultless (Expr.valueOf fs vars text) := by
  obtain ⟨e, he⟩ := h text hmem
  unfold Expr.valueOf
  rw [he]
  exact e.eval_faultless fs vars

theorem Readable.weight {w : Weight} (h : Readable w.formulas) : Faultless (w.valueOf fs vars) := by
  cases w with
  | constant v => exact .ok _
  | formula text => exact (h.valueOf fs vars (List.mem_singleton_self text)).bind fun v => .ok _

theorem Readable.data {data : DataSpec} (h : Readable data.formulas) :
    Faultless (Descriptor.dataOf fs vars data) := by
  cases data with
  | any | value v => exact .ok _
  | formula text => exact (h.valueOf fs vars (List.mem_singleton_self text)).bind fun v => .ok _

theorem Readable.entry {d : Descriptor} (h : Readable d.formulas) :
    Faultless (d.entryOf scene vars) := by
  cases d with
  | named block data | legacy id data => exact (Readable.data _ vars h).bind fun v => .ok _
  | legacyFormula text data =>
    obtain ⟨htext, hdata⟩ := List.forall_mem_cons.1 h
    refine (h.valueOf _ vars List.mem_cons_self).bind fun v => ?_
    refine (Readable.data _ vars hdata).bind fun v => ?_
    split <;> exact .ok _
  | runtime id | tree entry => exact .ok _
  | runtimeFormula text =>
    refine (h.valueOf _ vars (List.mem_singleton_self text)).bind fun v => ?_
    dsimp only
    split <;> exact .ok _

namespace Pattern

theorem pickOf_faultless {terms : List Term} (h : ∀ t ∈ terms, Readable t.formulas) (d : Draws) :
    Faultless (pickOf scene vars terms d).1 := by
  unfold pickOf
  split
  · exact .ok _
  · have hweights : Faultless (terms.mapM fun t => t.weight.valueOf scene.functions vars) :=
      .mapM fun t ht => Readable.weight _ vars fun text hmem => h t ht text (List.mem_append_left _ hmem)
    unfold drawOf
    split
    · rename_i e he
      rw [he] at hweights
      exact hweights.error
    · exact .ok _

/-- A term that was picked is one of the terms. -/
theorem mem_of_pickOf {terms : List Term} {d d' : Draws} {t : Term}
    (h : pickOf scene vars terms d = (.ok (some t), d')) : t ∈ terms := by
  unfold pickOf at h
  split at h
  · have hsome := Except.ok.inj (Prod.mk.inj h).1
    split at hsome
    · exact List.mem_singleton.2 (Option.some.inj hsome).symm
    · exact nomatch hsome
  · unfold drawOf at h
    split at h
    · exact nomatch (Prod.mk.inj h).1
    · obtain ⟨i, -, hi⟩ := Option.bind_eq_some_iff.1 (Except.ok.inj (Prod.mk.inj h).1)
      exact List.mem_of_getElem? hi

theorem sampleOf_faultless {pattern : Pattern} (h : ∀ t ∈ pattern.terms, Readable t.formulas)
    (p : Pos) (d : Draws) : Faultless (pattern.sampleOf scene vars p d).1 := by
  unfold terms at h
  unfold sampleOf
  cases hsource : pattern.source with
  | clipboard tiling =>
    dsimp only
    split <;> exact .ok _
  | terms terms =>
    rw [hsource] at h
    have hpick := pickOf_faultless scene vars h d
    dsimp only
    split
    · rename_i t rest ht
      have hmem := mem_of_pickOf scene vars ht
      exact Readable.entry scene vars fun text htext => h t hmem text (List.mem_append_right _ htext)
    · exact .ok none
    · rename_i e rest he
      rw [he] at hpick
      exact hpick.error

variable {text : String} {pattern : Pattern}

/-- **A pattern that was read never fails on the syntax of a formula**, whatever formulas have been
kept: a pick and a sample are those that the texts of the formulas give. -/
theorem sample_faultless (h : parse text = .ok pattern) (p : Pos) (s : SampleState) :
    Faultless (pattern.sample scene vars p s).1 ∧
    Faultless (pick scene vars pattern.terms s).1 ∧
    ((pattern.sample scene vars p s).1, (pattern.sample scene vars p s).2.draws) =
      pattern.sampleOf scene vars p s.draws ∧
    ((pick scene vars pattern.terms s).1, (pick scene vars pattern.terms s).2.draws) =
      pickOf scene vars pattern.terms s.draws := by
  have hsample := sample_eq scene vars pattern p s
  have hpick := pick_eq scene vars pattern.terms s
  refine ⟨?_, ?_, hsample, hpick⟩
  · rw [(Prod.ext_iff.1 hsample).1]
    exact sampleOf_faultless scene vars (parse_formulas h) p s.draws
  · rw [(Prod.ext_iff.1 hpick).1]
    exact pickOf_faultless scene vars (parse_formulas h) s.draws

/-- A formula without a value is an error, but none of syntax. -/
theorem sample_faultless_unknown :
    ∃ p, parse "'x'%stone:'y'" = .ok p ∧
      (p.sample (R := Float) ⟨.withSeed .flat 0, .standard, none, none⟩ .empty .zero
        ⟨.empty, .ofList []⟩).1 = .error (.unknownVariable "x") ∧
      Faultless (p.sample (R := Float) ⟨.withSeed .flat 0, .standard, none, none⟩ .empty .zero
        ⟨.empty, .ofList []⟩).1 := by
  have hparse : parse "'x'%stone:'y'" = .ok ⟨"'x'%stone:'y'",
      .terms [⟨.formula "x", .named (.ofName "minecraft:stone") (.formula "y")⟩]⟩ := by cbv
  have hvalue : Expr.valueOf (.withSeed .flat 0) .empty "x" = .error (.unknownVariable "x") := by
    have hx : Expr.parse "x" = .ok (.variable "x") := by cbv
    unfold Expr.valueOf
    rw [hx]
    rfl
  obtain ⟨hfaultless, -, hsample, -⟩ := sample_faultless (R := Float)
    ⟨.withSeed .flat 0, .standard, none, none⟩ .empty hparse .zero ⟨.empty, .ofList []⟩
  refine ⟨_, hparse, (Prod.ext_iff.1 hsample).1.trans ?_, hfaultless⟩
  simp only [sampleOf, pickOf, drawOf, List.mapM_cons, Weight.valueOf, hvalue]
  rfl

end Pattern

end VoxelEdit
