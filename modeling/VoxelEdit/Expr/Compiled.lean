import Std.Data.HashMap
import VoxelEdit.Expr.Eval
import VoxelEdit.Expr.Parser

/-!
# Compiled formulas

A cache of formulas by their text. It starts over when it is full, and it never holds anything
but what the text reads as.
-/

namespace VoxelEdit

/-- Formulas read so far. -/
structure Compiled where
  formulas : Std.HashMap String Expr
  faithful (text : String) (e : Expr) : formulas[text]? = some e → Expr.parse text = .ok e

namespace Compiled

/-- The most formulas that are kept. -/
def limit : Nat := 1024

/-- Nothing read yet. -/
def empty : Compiled := ⟨∅, by simp⟩

/-- The cache with a formula that was just read. -/
def keep (cache : Compiled) (text : String) (e : Expr) (h : Expr.parse text = .ok e) : Compiled :=
  let kept := if cache.formulas.size ≥ limit then empty else cache
  { formulas := kept.formulas.insert text e
    faithful := by
      intro t f hf
      rw [Std.HashMap.getElem?_insert] at hf
      split at hf
      · rename_i ht
        rw [← eq_of_beq ht, h, Option.some.inj hf]
      · exact kept.faithful t f hf }

/-- The formula of a text, from the cache or read and kept. -/
def compile (cache : Compiled) (text : String) : Except EvalError (Expr × Compiled) :=
  match cache.formulas[text]? with
  | some e => .ok (e, cache)
  | none =>
    match h : Expr.parse text with
    | .ok e => .ok (e, cache.keep text e h)
    | .error e => .error e

end Compiled

end VoxelEdit
