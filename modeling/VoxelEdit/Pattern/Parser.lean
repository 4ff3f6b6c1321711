import VoxelEdit.Expr.Parser
import VoxelEdit.Pattern.Basic
import VoxelEdit.Pattern.Token

/-!
# Reading patterns

`[weight%]descriptor[:data]` terms between commas, or `#clipboard [@c] [x[,y[,z]]]` on its own.
Quoted formulas are read once to see that they are well formed. `fin` is the length of the text
in bytes, the position of its end.
-/

namespace VoxelEdit.Pattern

open Number

/-- The position of the next token. -/
def nextPos (fin : Nat) (ts : List Spanned) : Nat := (ts.head?.map Spanned.pos).getD fin

/-- A formula at `pos`, as text, if it can be read. -/
def formula (pos : Nat) (text : String) : Except PatternError String :=
  match Expr.parse text with
  | .ok _ => .ok text
  | .error cause => .error (.badFormula pos cause)

/-- A number of 32 bits at `pos`. -/
def whole (pos : Nat) (text : String) : Except PatternError Int :=
  match integer? minInt32 maxInt32 text.toList with
  | some v => .ok v
  | none => .error (.badNumber pos text)

/-- The weight of the token before a percent sign. -/
def weightOf (t : Spanned) : Except PatternError Weight :=
  match t.token with
  | .number text =>
    match double? text.toList with
    | none => .error (.badNumber t.pos text)
    | some v => if v < 0.0 then .error (.negativeWeight t.pos) else .ok (.constant v)
  | .quoted text => (formula t.pos text).map Weight.formula
  | _ => .error (.wanted t.pos .weight)

/-- The weight in front of a descriptor, one if there is none. -/
def weight : List Spanned → Except PatternError (Weight × List Spanned)
  | t :: ⟨_, .percent⟩ :: rest => (weightOf t).map fun w => (w, rest)
  | ts => .ok (.constant 1.0, ts)

/-- The data value after a descriptor. -/
def data (fin : Nat) : List Spanned → Except PatternError (DataSpec × List Spanned)
  | ⟨_, .colon⟩ :: rest =>
    match rest with
    | ⟨pos, .number text⟩ :: rest =>
      match bounded? maxWord16 text.toList with
      | some v => .ok (.value v.toUInt16, rest)
      | none => .error (.badNumber pos text)
    | ⟨pos, .quoted text⟩ :: rest => (formula pos text).map fun s => (.formula s, rest)
    | _ => .error (.wanted (nextPos fin rest) .data)
  | ts => .ok (.any, ts)

/-- A descriptor. -/
def descriptor (fin : Nat) : List Spanned → Except PatternError (Descriptor × List Spanned)
  | [] => .error (.wanted fin .block)
  | ⟨pos, token⟩ :: rest =>
    match token with
    | .name text states => do
      let (d, rest) ← data fin rest
      return (.ofName text states d, rest)
    | .number text => do
      let id ← whole pos text
      let (d, rest) ← data fin rest
      return (.legacy id d, rest)
    | .quoted text => do
      let id ← formula pos text
      let (d, rest) ← data fin rest
      return (.legacyFormula id d, rest)
    | .runtimeQuoted text => do return (.runtimeFormula (← formula pos text), rest)
    | .tree text => do return (← Descriptor.ofTree text pos, rest)
    | .directive name =>
      .error (if name = "clipboard" then .mixedClipboard pos else .unknownDirective pos name)
    | _ => .error (.wanted pos .block)

/-- Terms up to the end; `limit` bounds their number. -/
def termsUpTo (fin : Nat) : (limit : Nat) → List Spanned → Except PatternError (List Term)
  | 0, ts => .error (.wanted (nextPos fin ts) .block)
  | limit + 1, ts => do
    let (w, rest) ← weight ts
    let (d, rest) ← descriptor fin rest
    match rest with
    | [] => return [⟨w, d⟩]
    | ⟨_, .comma⟩ :: rest => return ⟨w, d⟩ :: (← termsUpTo fin limit rest)
    | ⟨pos, _⟩ :: _ => throw (.wanted pos .comma)

/-- One number of an offset. -/
def offsetPart (fin : Nat) : List Spanned → Except PatternError (Int × List Spanned)
  | ⟨pos, .number text⟩ :: rest => do return (← whole pos text, rest)
  | ts => .error (.wanted (nextPos fin ts) .offset)

/-- The next number of an offset after a comma, zero if none follows. -/
def offsetMore (fin : Nat) : List Spanned → Except PatternError (Int × List Spanned)
  | ⟨_, .comma⟩ :: rest => offsetPart fin rest
  | ts => .ok (0, ts)

/-- An offset of up to three numbers. Without a first one there is no other. -/
def offset (fin : Nat) (ts : List Spanned) : Except PatternError (Pos × List Spanned) :=
  match ts with
  | ⟨_, .number _⟩ :: _ => do
    let (x, ts) ← offsetPart fin ts
    let (y, ts) ← offsetMore fin ts
    let (z, ts) ← offsetMore fin ts
    return (⟨x, y, z⟩, ts)
  | _ => .ok (.zero, ts)

/-- What follows `#clipboard`. -/
def tiling (fin : Nat) (ts : List Spanned) : Except PatternError Tiling := do
  let (centered, ts) ← match ts with
    | ⟨pos, .flag name⟩ :: rest =>
      if name = "c" then pure (true, rest) else throw (.wanted pos .center)
    | _ => pure (false, ts)
  let (d, ts) ← offset fin ts
  match ts with
  | [] => return ⟨centered, d⟩
  | t :: _ => throw (.mixedClipboard t.pos)

/-- The source that a list of tokens describes. -/
def sourceOf (fin : Nat) (ts : List Spanned) : Except PatternError Source :=
  match ts with
  | ⟨pos, .directive name⟩ :: rest =>
    if name = "clipboard" then (tiling fin rest).map Source.clipboard
    else .error (.unknownDirective pos name)
  | _ => (termsUpTo fin ts.length ts).map Source.terms

/-- Reads a pattern. -/
def parse (text : String) : Except PatternError Pattern := do
  let ts ← Token.ofText text
  if ts.isEmpty then throw .empty
  return ⟨text, ← sourceOf text.utf8ByteSize ts⟩

end VoxelEdit.Pattern
