/-!
# Weighted choice

A draw, given as a part of the total weight, falls on the first candidate at which the sum of
the weights so far reaches it. A candidate without weight is never chosen.
-/

namespace VoxelEdit.Weighted

variable {R : Type} [OfNat R 0] [Add R] [Mul R] [LE R] [LT R] [DecidableLE R] [DecidableLT R]

/-- The first candidate with a weight at which the sum, which starts at `sum`, reaches `draw`;
numbering starts at `i`. -/
def reach? (draw : R) : (weights : List R) → (sum : R) → (i : Nat) → Option Nat
  | [], _, _ => none
  | w :: ws, sum, i =>
    if 0 < w ∧ draw ≤ sum + w then some i else reach? draw ws (sum + w) (i + 1)

/-- The last candidate with a weight. -/
def last? (weights : List R) : Option Nat :=
  (weights.reverse.findIdx? fun w => decide (0 < w)).map fun i => weights.length - 1 - i

/-- The candidate that the part `unit` of the total weight falls on, if the total is at least
`least`. A draw that rounding puts past the end falls on the last one. -/
def index? (least : R) (weights : List R) (unit : R) : Option Nat :=
  let total := weights.foldl (· + ·) 0
  if least ≤ total then reach? (unit * total) weights 0 0 <|> last? weights else none

end VoxelEdit.Weighted
