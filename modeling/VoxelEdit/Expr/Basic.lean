import VoxelEdit.Number.Binary

/-!
# Expressions

The tree of a numeric formula over named values and functions, and the ways in which reading or
evaluating one can fail.
-/

namespace VoxelEdit

/-- An infix operator. -/
inductive BinaryOp where
  | add | sub | mul | div | rem | pow | lt | le | gt | ge | eq | ne | and | or
deriving DecidableEq, Repr

namespace BinaryOp

/-- Truth as a number. -/
def truth (b : Bool) : Float := if b then 1.0 else 0.0

/-- The value of an operator; a number counts as true unless it is zero. -/
def apply (op : BinaryOp) (a b : Float) : Float :=
  match op with
  | .add => a + b
  | .sub => a - b
  | .mul => a * b
  | .div => a / b
  | .rem => Number.remainder a b
  | .pow => Float.pow a b
  | .lt => truth (a < b)
  | .le => truth (a ≤ b)
  | .gt => truth (a > b)
  | .ge => truth (a ≥ b)
  | .eq => truth (a == b)
  | .ne => truth (a != b)
  | .and => truth (a != 0.0 && b != 0.0)
  | .or => truth (a != 0.0 || b != 0.0)

end BinaryOp

/-- A formula. -/
inductive Expr where
  | number (value : Float)
  | variable (name : String)
  | neg (e : Expr)
  | not (e : Expr)
  | binary (op : BinaryOp) (a b : Expr)
  | call (name : String) (args : List Expr)
deriving Inhabited, Repr

/-- The number that a formula is written as, under any number of minus signs. -/
def Expr.constant? : Expr → Option Float
  | .number v => some v
  | .neg e => e.constant?.map fun v => -v
  | _ => none

/-- What is wrong with the text of a formula. -/
inductive SyntaxFault where
  | tooDeep
  | openParenthesis
  | openArguments
  | foreignCharacter
  | endOfText
  | trailingText
  | badNumber (text : String)
deriving DecidableEq, Repr

/-- The wording of a fault. -/
def SyntaxFault.message : SyntaxFault → String
  | .tooDeep => "expression nested too deeply"
  | .openParenthesis => "expected ')'"
  | .openArguments => "expected ',' or ')'"
  | .foreignCharacter => "unexpected character"
  | .endOfText => "unexpected end of expression"
  | .trailingText => "unexpected trailing input"
  | .badNumber text => "invalid number '" ++ text ++ "'"

/-- How many arguments a function takes. -/
inductive Arity where
  | exactly (n : Nat)
  | twoOrThree
  | some
deriving DecidableEq, Repr

namespace Arity

/-- Whether a number of arguments is right. -/
def accepts : Arity → Nat → Bool
  | .exactly n, k => k == n
  | .twoOrThree, k => k == 2 || k == 3
  | .some, k => k ≥ 1

/-- The wording of an arity. -/
def text : Arity → String
  | .exactly n => toString n
  | .twoOrThree => "2 or 3"
  | .some => "at least 1"

end Arity

/-- Why a formula has no value. The position of a syntax fault counts bytes. -/
inductive EvalError where
  | malformed (pos : Nat) (fault : SyntaxFault)
  | unknownVariable (name : String)
  | unknownFunction (name : String)
  | arity (name : String) (expected : Arity) (found : Nat)
deriving DecidableEq, Repr

/-- The message of an error. -/
def EvalError.message : EvalError → String
  | .malformed pos fault => "Syntax error at " ++ toString pos ++ ": " ++ fault.message
  | .unknownVariable name => "Unknown variable '" ++ name ++ "'"
  | .unknownFunction name => "Unknown function '" ++ name ++ "'"
  | .arity name expected found =>
    "Function '" ++ name ++ "' expects " ++ expected.text ++ " arguments, got " ++ toString found

end VoxelEdit
