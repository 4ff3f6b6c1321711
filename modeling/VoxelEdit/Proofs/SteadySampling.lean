import Mathlib.Data.List.ReduceOption
import VoxelEdit.Session.Edit

/-!
# Sampling without a cache

A sample goes through a cache of formulas and a stream of draws. The cache holds nothing but what
the texts read as, so it never shows.

* `Sampling.answer`: what a computation answers, and the draws that it leaves, with nothing in the
  cache.
* `Sampling.Steady`: whatever the cache holds, the answer is that one. Samples of patterns are
  steady (`Pattern.sample_steady`), and so are masks.
* `Samples`: computations for a list of items, one after the other, from one stream of draws.
-/

namespace VoxelEdit

/-! ## Formulas -/

/-- The value of a formula, read from its text. -/
def Expr.valueOf (fs : Functions) (vars : Variables) (text : String) : Except EvalError Float := do
  (← Expr.parse text).eval vars fs

/-- A cache answers what the text reads as. -/
theorem Compiled.compile_fst (cache : Compiled) (text : String) :
    (cache.compile text).map Prod.fst = Expr.parse text := by
  unfold compile
  split
  · rename_i e he
    exact (cache.faithful text e he).symm
  · split
    · rename_i e he
      exact he.symm
    · rename_i e he
      exact he.symm

namespace Sampling

variable {α β : Type}

/-- What a computation answers, and the draws that it leaves, with nothing in the cache. -/
def answer (x : Sampling α) (d : Draws) : Except EvalError α × Draws :=
  ((x ⟨.empty, d⟩).1, (x ⟨.empty, d⟩).2.draws)

/-- The cache does not show. -/
def Steady (x : Sampling α) : Prop := ∀ s, ((x s).1, (x s).2.draws) = x.answer s.draws

theorem bind_apply (x : Sampling α) (f : α → Sampling β) (s : SampleState) :
    (x >>= f) s = match x s with
      | (.ok a, t) => f a t
      | (.error e, t) => (.error e, t) := by
  show (ExceptT.bind x f : Sampling β) s = _
  simp only [ExceptT.bind, ExceptT.mk, bind, StateT.bind, ExceptT.bindCont]
  rcases x s with ⟨_ | _, _⟩ <;> rfl

theorem Steady.pure (a : α) : Steady (Pure.pure a : Sampling α) := fun _ => rfl

/-- Steady computations one after the other. -/
theorem Steady.bind {x : Sampling α} {f : α → Sampling β} (hx : Steady x)
    (hf : ∀ a, Steady (f a)) : Steady (x >>= f) := by
  -- the two caches may differ after `x`, but `f` is steady from either of them
  intro s
  have h := hx s
  unfold answer at h ⊢
  rw [bind_apply, bind_apply]
  rcases hs : x s with ⟨_ | a, t⟩ <;> rcases he : x ⟨.empty, s.draws⟩ with ⟨_ | a', t'⟩ <;>
    rw [hs, he] at h <;>
    simp only [Prod.mk.injEq, reduceCtorEq, false_and, Except.error.injEq, Except.ok.injEq] at h ⊢
  · exact h
  · obtain ⟨rfl, hd⟩ := h
    have h1 := hf a t
    have h2 := hf a t'
    rw [hd] at h1
    exact Prod.mk.inj (h1.trans h2.symm)

theorem answer_bind {x : Sampling α} {f : α → Sampling β} (hf : ∀ a, Steady (f a)) (d : Draws) :
    (x >>= f).answer d = match x.answer d with
      | (.ok a, d') => (f a).answer d'
      | (.error e, d') => (.error e, d') := by
  unfold answer
  rw [bind_apply]
  rcases he : x ⟨.empty, d⟩ with ⟨_ | a, t⟩
  · rfl
  · exact hf a t

/-- Reading a formula answers what its text reads as, and draws nothing. -/
theorem compile_apply (text : String) (s : SampleState) :
    (compile text s).1 = Expr.parse text ∧ (compile text s).2.draws = s.draws := by
  have h := s.compiled.compile_fst text
  unfold compile
  cases hc : s.compiled.compile text with
  | error e =>
    rw [hc] at h
    exact ⟨h, rfl⟩
  | ok x =>
    rw [hc] at h
    exact ⟨h, rfl⟩

theorem compile_steady (text : String) : Steady (compile text) := by
  intro s
  obtain ⟨h1, h2⟩ := compile_apply text s
  obtain ⟨h3, h4⟩ := compile_apply text ⟨.empty, s.draws⟩
  exact Prod.ext (h1.trans h3.symm) (h2.trans h4.symm)

theorem formula_steady (fs : Functions) (vars : Variables) (text : String) :
    Steady (formula fs vars text) :=
  (compile_steady text).bind fun _ _ => rfl

theorem answer_formula (fs : Functions) (vars : Variables) (text : String) (d : Draws) :
    (formula fs vars text).answer d = (Expr.valueOf fs vars text, d) := by
  have hanswer : (compile text).answer d = (Expr.parse text, d) :=
    Prod.ext (compile_apply text ⟨.empty, d⟩).1 (compile_apply text ⟨.empty, d⟩).2
  unfold formula
  rw [answer_bind fun _ _ => rfl, hanswer]
  unfold Expr.valueOf
  cases Expr.parse text <;> rfl

theorem draw_steady : Steady draw := fun _ => rfl

theorem mapM_steady {f : α → Sampling β} (hf : ∀ a, Steady (f a)) (as : List α) :
    Steady (as.mapM f) := by
  induction as with
  | nil => exact Steady.pure _
  | cons a as ih =>
    rw [List.mapM_cons]
    exact (hf a).bind fun _ => ih.bind fun _ => Steady.pure _

end Sampling

/-! ## Patterns -/

open Sampling

section Patterns

variable {R : Type} (scene : Scene R) (fs : Functions) (vars : Variables)

theorem Weight.eval_steady (w : Weight) : Steady (w.eval fs vars) := by
  cases w with
  | constant v => exact Steady.pure _
  | formula text => exact (formula_steady fs vars text).bind fun _ => Steady.pure _

theorem Descriptor.dataValue_steady (data : DataSpec) : Steady (dataValue fs vars data) := by
  cases data with
  | any => exact Steady.pure _
  | value v => exact Steady.pure _
  | formula text => exact (formula_steady fs vars text).bind fun _ => Steady.pure _

theorem Descriptor.resolve_steady (d : Descriptor) : Steady (d.resolve scene vars) := by
  cases d with
  | named block data => exact (dataValue_steady _ _ data).bind fun _ => Steady.pure _
  | legacy id data => exact (dataValue_steady _ _ data).bind fun _ => Steady.pure _
  | legacyFormula text data =>
    refine (formula_steady _ _ text).bind fun _ => (dataValue_steady _ _ data).bind fun _ => ?_
    split <;> exact Steady.pure _
  | runtime id => exact Steady.pure _
  | runtimeFormula text =>
    refine (formula_steady _ _ text).bind fun _ => ?_
    dsimp only
    split <;> exact Steady.pure _
  | tree entry => exact Steady.pure _

theorem Pattern.pick_steady (terms : List Term) : Steady (pick scene vars terms) := by
  unfold pick
  split
  · exact Steady.pure _
  · exact (mapM_steady (fun t => Weight.eval_steady _ _ t.weight) terms).bind fun _ =>
      draw_steady.bind fun _ => Steady.pure _

/-- **The sample of a pattern does not depend on the cache.** -/
theorem Pattern.sample_steady (pattern : Pattern) (p : Pos) :
    Steady (pattern.sample scene vars p) := by
  unfold sample
  cases pattern.source with
  | clipboard tiling =>
    dsimp only
    split <;> exact Steady.pure _
  | terms terms =>
    refine (pick_steady scene vars terms).bind fun t => ?_
    cases t with
    | none => exact Steady.pure _
    | some t => exact t.descriptor.resolve_steady scene vars

end Patterns

/-! ## Lists of samples -/

/-- Computations for a list of items, one after the other, from one stream of draws: each starts
with the draws that the one before it left. -/
inductive Samples {α β : Type} (x : α → Sampling β) : Draws → List α → List β → Draws → Prop
  | nil (d : Draws) : Samples x d [] [] d
  | cons {a : α} {b : β} {as : List α} {bs : List β} {d d' d'' : Draws} :
      (x a).answer d = (.ok b, d') → Samples x d' as bs d'' → Samples x d (a :: as) (b :: bs) d''

theorem Samples.length_eq {α β : Type} {x : α → Sampling β} {d d' : Draws} {as : List α}
    {bs : List β} (h : Samples x d as bs d') : as.length = bs.length := by
  induction h with
  | nil => rfl
  | cons _ _ ih => rw [List.length_cons, List.length_cons, ih]

namespace Plan

/-- **A plan that is gathered** holds what the items answer one after the other. -/
theorem gather_samples {α : Type} {choose : α → Sampling (Option (Pos × Entry))}
    (hc : ∀ a, Steady (choose a)) (items : List α) (taken : Plan) {s t : SampleState} {plan : Plan}
    (h : gather choose items taken s = (.ok plan, t)) :
    ∃ found, Samples choose s.draws items found t.draws ∧
      plan = taken.reverse ++ found.reduceOption := by
  induction items generalizing taken s with
  | nil =>
    obtain ⟨hplan, rfl⟩ := Prod.mk.inj h
    exact ⟨[], .nil _, by simpa using (Except.ok.inj hplan).symm⟩
  | cons a items ih =>
    rw [gather, bind_apply] at h
    have hsteady := hc a s
    rcases hs : choose a s with ⟨e | o, t'⟩ <;> rw [hs] at h hsteady
    · exact nomatch (Prod.mk.inj h).1
    · cases o with
      | none =>
        obtain ⟨found, hfound, hplan⟩ := ih taken h
        exact ⟨none :: found, .cons hsteady.symm hfound, by simpa using hplan⟩
      | some write =>
        obtain ⟨found, hfound, hplan⟩ := ih (write :: taken) h
        exact ⟨some write :: found, .cons hsteady.symm hfound, by simpa using hplan⟩

/-- A plan whose items all answer is gathered. -/
theorem gather_of_samples {α : Type} {choose : α → Sampling (Option (Pos × Entry))}
    (hc : ∀ a, Steady (choose a)) {items : List α} {found : List (Option (Pos × Entry))}
    {d d' : Draws} (h : Samples choose d items found d') (taken : Plan) {s : SampleState}
    (hs : s.draws = d) : ∃ plan t, gather choose items taken s = (.ok plan, t) := by
  induction h generalizing taken s with
  | nil => exact ⟨_, _, rfl⟩
  | @cons a o _ _ _ _ _ ha _ ih =>
    have hsteady := hc a s
    rw [hs, ha] at hsteady
    rw [gather, bind_apply]
    rcases hx : choose a s with ⟨x, t⟩
    rw [hx] at hsteady
    obtain ⟨rfl, rfl⟩ := Prod.mk.inj hsteady
    cases o with
    | none => exact ih taken rfl
    | some write => exact ih (write :: taken) rfl

end Plan

end VoxelEdit
