import VoxelEdit.Expr.Basic

/-!
# What is wrong with a pattern

Positions count the bytes of the pattern's text.
-/

namespace VoxelEdit

/-- What should have come next. -/
inductive Wanted where
  | comma | directive | center | offset | weight | data | block
deriving DecidableEq, Repr

/-- The wording of what should have come next. -/
def Wanted.text : Wanted → String
  | .comma => "','"
  | .directive => "directive"
  | .center => "'@c'"
  | .offset => "integer offset"
  | .weight => "weight"
  | .data => "data value"
  | .block => "block"

/-- What is wrong with a tag tree that describes a block. -/
inductive TreeFault where
  | tooDeep
  | malformed
  | noName
  | count (n : Nat)
deriving DecidableEq, Repr

/-- Why a text is no pattern. -/
inductive PatternError where
  | empty
  | openQuote (pos : Nat)
  | openBrace (pos : Nat)
  | openStates (pos : Nat)
  | badState (pos : Nat) (text : String)
  | foreignCharacter (pos : Nat) (c : Char)
  | badNumber (pos : Nat) (text : String)
  | wanted (pos : Nat) (what : Wanted)
  | badTree (pos : Nat) (fault : TreeFault)
  | negativeWeight (pos : Nat)
  | badFormula (pos : Nat) (cause : EvalError)
  | unknownDirective (pos : Nat) (name : String)
  | mixedClipboard (pos : Nat)
deriving DecidableEq, Repr

/-- The message of an error. -/
def PatternError.message : PatternError → String
  | .empty => "Empty pattern"
  | .openQuote pos => "Unterminated quote starting at " ++ toString pos
  | .openBrace pos => "Unterminated brace starting at " ++ toString pos
  | .openStates pos => "Unterminated block state list starting at " ++ toString pos
  | .badState pos text => "Invalid block state '" ++ text ++ "' at " ++ toString pos
  | .foreignCharacter pos c => "Unexpected character '" ++ c.toString ++ "' at " ++ toString pos
  | .badNumber pos text => "Invalid number '" ++ text ++ "' at " ++ toString pos
  | .wanted pos what => "Expected " ++ what.text ++ " at " ++ toString pos
  | .badTree pos fault =>
    let detail := match fault with
      | .tooDeep => ": nested too deeply"
      | .malformed => ""
      | .noName => ": Failed to get Name"
      | .count n => ": expected 1 to 3 compounds, found " ++ toString n
    "Invalid SNBT at " ++ toString pos ++ detail
  | .negativeWeight pos => "Negative weight at " ++ toString pos
  | .badFormula pos cause => "Invalid expression at " ++ toString pos ++ ": " ++ cause.message
  | .unknownDirective pos name => "Unknown directive '#" ++ name ++ "' at " ++ toString pos
  | .mixedClipboard pos =>
    "#clipboard cannot be combined with other terms (at " ++ toString pos ++ ")"

end VoxelEdit
