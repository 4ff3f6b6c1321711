import VoxelEdit.Block.Registry
import VoxelEdit.Clipboard.Basic
import VoxelEdit.Expr.Compiled
import VoxelEdit.Pattern.Basic
import VoxelEdit.Pattern.Weighted
import VoxelEdit.Region.Basic

/-!
# Sampling patterns

A sample is the entry that a pattern puts at a position, or nothing where all weights are zero,
a number stands for no block, or the clipboard is empty. Formulas go through a cache and weights
are drawn from a stream of random words; one draw is made for each sample of a list of terms,
except for a single term of constant weight.
-/

namespace VoxelEdit

/-- A stream of random words and the number of those that were used. -/
structure Draws where
  word : Nat → UInt64
  used : Nat

namespace Draws

/-- The stream that starts with a list of words and goes on with zeros. -/
def ofList (words : List UInt64) : Draws :=
  let words := words.toArray
  ⟨fun i => words.getD i 0, 0⟩

/-- The number from zero up to one that the high bits of a word stand for. -/
def unit (word : UInt64) : Float := Float.ofNat (word >>> 11).toNat * Float.ofBits 0x3CA0000000000000

/-- Uses a word. -/
def next (d : Draws) : Float × Draws := (unit (d.word d.used), { d with used := d.used + 1 })

end Draws

/-- What sampling keeps: the formulas read so far and the random words. -/
structure SampleState where
  compiled : Compiled
  draws : Draws

/-- A computation that evaluates formulas and draws. One that fails has used its draws, too. -/
abbrev Sampling (α : Type) := ExceptT EvalError (StateM SampleState) α

/-- What a pattern is sampled in. -/
structure Scene (R : Type) where
  functions : Functions
  registry : BlockRegistry
  clipboard : Option Clipboard
  region : Option (Region R)

namespace Sampling

/-- The formula of a text. -/
def compile (text : String) : Sampling Expr := fun s =>
  match s.compiled.compile text with
  | .ok (e, compiled) => (.ok e, { s with compiled })
  | .error e => (.error e, s)

/-- The value of a formula. -/
def formula (fs : Functions) (vars : Variables) (text : String) : Sampling Float := do
  let e ← compile text
  fun s => (e.eval vars fs, s)

/-- A random number. -/
def draw : Sampling Float := fun s =>
  let (u, draws) := s.draws.next
  (.ok u, { s with draws })

end Sampling

/-- The value of a weight, which is at least zero. -/
def Weight.eval (fs : Functions) (vars : Variables) (weight : Weight) : Sampling Float := do
  let v ← match weight with
    | .constant v => pure v
    | .formula text => Sampling.formula fs vars text
  return if v > 0.0 then v else 0.0

namespace Descriptor

/-- A number rounded to a whole one, a half away from zero and kept to 64 bits; minus one for
what is not finite. -/
def rounded (v : Float) : Int := if v.isFinite then v.round.toInt64.toInt else -1

/-- The data value that a specification places. -/
def dataValue (fs : Functions) (vars : Variables) : DataSpec → Sampling UInt16
  | .any => pure 0
  | .value v => pure v
  | .formula text => do
    let v := rounded (← Sampling.formula fs vars text)
    return (max 0 (min (Number.maxWord16 : Int) v)).toNat.toUInt16

variable {R : Type} (scene : Scene R) (vars : Variables)

/-- The entry that a candidate stands for. -/
def resolve : Descriptor → Sampling (Option Entry)
  | .named block data => do
    let data ← dataValue scene.functions vars data
    return some (.ofBlock { block with data })
  | .legacy id data => do
    let data ← dataValue scene.functions vars data
    return (scene.registry.byLegacy? id data).map .ofBlock
  | .legacyFormula text data => do
    let id := rounded (← Sampling.formula scene.functions vars text)
    let data ← dataValue scene.functions vars data
    if Number.minInt32 ≤ id && id ≤ Number.maxInt32 then
      return (scene.registry.byLegacy? id data).map .ofBlock
    else return none
  | .runtime id => return (scene.registry.byRuntime? id).map .ofBlock
  | .runtimeFormula text => do
    let id := rounded (← Sampling.formula scene.functions vars text)
    if 0 ≤ id && id ≤ Number.maxWord32 then
      return (scene.registry.byRuntime? id.toNat).map .ofBlock
    else return none
  | .tree entry => return some entry

end Descriptor

/-- The position of the world that a tiling lays the origin of the clipboard on. -/
def Tiling.bias {R : Type} (t : Tiling) (region : Option (Region R)) : Pos :=
  let anchor := match region with
    | none => .zero
    | some r => if t.centered then r.centerBlock else r.box.min
  anchor - t.offset

namespace Pattern

/-- Below this total weight nothing is drawn. -/
def minTotal : Float := 1e-32

variable {R : Type} (scene : Scene R) (vars : Variables)

/-- Draws a term by its weight. -/
def pick (terms : List Term) : Sampling (Option Term) := do
  match terms with
  | [⟨.constant w, d⟩] => return if w ≥ minTotal then some ⟨.constant w, d⟩ else none
  | terms =>
    let weights ← terms.mapM fun t => t.weight.eval scene.functions vars
    let unit ← Sampling.draw
    return (Weighted.index? minTotal weights unit).bind fun i => terms[i]?

/-- The entry of a pattern at a position. -/
def sample (pattern : Pattern) (p : Pos) : Sampling (Option Entry) := do
  match pattern.source with
  | .clipboard tiling =>
    match scene.clipboard with
    | some c => return if c.used then c.getTiled? (p - tiling.bias scene.region) else none
    | none => return none
  | .terms terms =>
    match ← pick scene vars terms with
    | some term => term.descriptor.resolve scene vars
    | none => return none

end Pattern

end VoxelEdit
