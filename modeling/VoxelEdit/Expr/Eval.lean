import VoxelEdit.Expr.Functions
import VoxelEdit.Expr.Variables

/-!
# Evaluating formulas

A name is looked up among the variables first and then among the two constants. Operands and
arguments are evaluated from left to right, all of them, and the first error is the answer.
-/

namespace VoxelEdit.Expr

/-- The named constants. -/
def constants : List (String × Float) :=
  [("pi", Float.ofBits 0x400921FB54442D18), ("e", Float.ofBits 0x4005BF0A8B145769)]

mutual

/-- The value of a formula. -/
def eval (vars : Variables) (fs : Functions) : Expr → Except EvalError Float
  | .number v => .ok v
  | .variable name =>
    match vars.get? name <|> constants.lookup name with
    | some v => .ok v
    | none => .error (.unknownVariable name)
  | .neg e => do return -(← eval vars fs e)
  | .not e => do return BinaryOp.truth ((← eval vars fs e) == 0.0)
  | .binary op a b => do
    let x ← eval vars fs a
    let y ← eval vars fs b
    return op.apply x y
  | .call name args => do fs.call name (← evalAll vars fs args)

/-- The values of arguments. -/
def evalAll (vars : Variables) (fs : Functions) : List Expr → Except EvalError (List Float)
  | [] => .ok []
  | e :: es => do
    let v ← eval vars fs e
    let vs ← evalAll vars fs es
    return v :: vs

end

end VoxelEdit.Expr
