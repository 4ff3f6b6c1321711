import Mathlib.Tactic.Ring
import VoxelEdit.Expr.Parser
import VoxelEdit.Proofs.SpacedText
import VoxelEdit.Proofs.WrittenNumbers

/-!
# The grammar of formulas

Formulas as trees, and how they are written with no more parentheses than needed.

* `Formula`: numerals, names, signs, infix operators and calls. `Formula.expr` is the tree that a
  reader should make of a formula.
* `BinaryOp.rank`: how loosely an operator binds; 0 is for atoms and 1 for signs and powers. A place
  in a formula takes ranks up to a bound, and what is looser goes into parentheses there
  (`bracketed`).
* `Formula.Writes`: a text consists of the lexemes of a formula, with any white space around them.
* `Formula.need`: how far the reader's counter of depth rises over a formula. `Formula.need_le`: it
  **grows with the square of the height only**.
-/

namespace VoxelEdit

open Number Text

/-! ## Operators -/

namespace BinaryOp

/-- How loosely an operator binds. -/
def rank : BinaryOp → Nat
  | .pow => 1
  | .mul | .div | .rem => 2
  | .add | .sub => 3
  | .lt | .le | .gt | .ge | .eq | .ne => 4
  | .and => 5
  | .or => 6

/-- How an operator is written. -/
def token : BinaryOp → List Char
  | .pow => ['^']
  | .mul => ['*']
  | .div => ['/']
  | .rem => ['%']
  | .add => ['+']
  | .sub => ['-']
  | .lt => ['<']
  | .le => ['<', '=']
  | .gt => ['>']
  | .ge => ['>', '=']
  | .eq => ['=', '=']
  | .ne => ['!', '=']
  | .and => ['&', '&']
  | .or => ['|', '|']

/-- Whether the operators of a rank chain from left to right. -/
def Chains (k : Nat) : Prop := k = 2 ∨ k = 3 ∨ k = 5 ∨ k = 6

instance : DecidablePred Chains := fun k => by unfold Chains; infer_instance

/-- The loosest rank on the left of an operator: an atom under a power, a tighter one beside a
comparison, and the same one in a chain. -/
def left (op : BinaryOp) : Nat := if Chains op.rank then op.rank else op.rank - 1

/-- The loosest rank on the right of an operator: a power takes a signed formula, and the others
take what is tighter. -/
def right (op : BinaryOp) : Nat := if op.rank = 1 then 1 else op.rank - 1

theorem rank_pos (op : BinaryOp) : 1 ≤ op.rank := by
  cases op <;> decide

theorem rank_le (op : BinaryOp) : op.rank ≤ 6 := by
  cases op <;> decide

end BinaryOp

/-! ## Trees -/

/-- A formula as it is meant, without parentheses. -/
inductive Formula where
  | number (n : Numeral)
  | variable (x : Identifier)
  | neg (f : Formula)
  | not (f : Formula)
  | binary (op : BinaryOp) (a b : Formula)
  | call (x : Identifier) (args : List Formula)

namespace Formula

mutual

/-- The tree of a formula. -/
def expr : Formula → Expr
  | .number n => .number n.value
  | .variable x => .variable x.name
  | .neg f => .neg f.expr
  | .not f => .not f.expr
  | .binary op a b => .binary op a.expr b.expr
  | .call x args => .call x.name (exprs args)

/-- The trees of arguments. -/
def exprs : List Formula → List Expr
  | [] => []
  | f :: fs => f.expr :: exprs fs

end

mutual

/-- The height of a formula; what has no parts has none. -/
def height : Formula → Nat
  | .number _ | .variable _ => 0
  | .neg f | .not f => f.height + 1
  | .binary _ a b => max a.height b.height + 1
  | .call _ args => heights args

/-- One more than the greatest height of arguments, if there are any. -/
def heights : List Formula → Nat
  | [] => 0
  | f :: fs => max (f.height + 1) (heights fs)

end

/-- How loosely a formula binds. -/
def rank : Formula → Nat
  | .number _ | .variable _ | .call _ _ => 0
  | .neg _ | .not _ => 1
  | .binary op _ _ => op.rank

end Formula

/-! ## Writing -/

/-- What a formula is made of. Signs are lexemes of their own, although a minus sign is written as
the operator is. -/
inductive Lexeme where
  | number (n : Numeral)
  | name (x : Identifier)
  | operator (op : BinaryOp)
  | minus
  | bang
  | opening
  | closing
  | comma

/-- The characters of a lexeme. -/
def Lexeme.text : Lexeme → List Char
  | .number n => n.digits
  | .name x => x.chars
  | .operator op => op.token
  | .minus => ['-']
  | .bang => ['!']
  | .opening => ['(']
  | .closing => [')']
  | .comma => [',']

/-- What a formula of rank `r` is written as where ranks up to `k` may stand: in parentheses, if it
binds too loosely. -/
def bracketed (k r : Nat) (ts : List Lexeme) : List Lexeme :=
  if k < r then .opening :: ts ++ [.closing] else ts

namespace Formula

mutual

/-- The lexemes of a formula that stands alone. -/
def bare : Formula → List Lexeme
  | .number n => [.number n]
  | .variable x => [.name x]
  | .neg f => .minus :: bracketed 1 f.rank f.bare
  | .not f => .bang :: bracketed 1 f.rank f.bare
  | .binary op a b =>
    bracketed op.left a.rank a.bare ++ .operator op :: bracketed op.right b.rank b.bare
  | .call x args => .name x :: .opening :: bareArgs args ++ [.closing]

/-- The lexemes of arguments, with commas between them. -/
def bareArgs : List Formula → List Lexeme
  | [] => []
  | [f] => f.bare
  | f :: g :: fs => f.bare ++ .comma :: bareArgs (g :: fs)

end

/-- The lexemes of a formula where ranks up to `k` may stand. -/
def lexemes (k : Nat) (f : Formula) : List Lexeme := bracketed k f.rank f.bare

/-- A text is a formula written down, with any white space between its lexemes. -/
def Writes (f : Formula) (text : String) : Prop :=
  Spaced isSpace (f.bare.map Lexeme.text) text.toList

theorem rank_le (f : Formula) : f.rank ≤ 6 := by
  unfold rank
  split
  · decide
  · decide
  · decide
  · decide
  · decide
  · exact BinaryOp.rank_le _

theorem lexemes_of_le {k : Nat} {f : Formula} (h : f.rank ≤ k) : f.lexemes k = f.bare :=
  if_neg (Nat.not_lt.2 h)

theorem lexemes_of_lt {k : Nat} {f : Formula} (h : k < f.rank) :
    f.lexemes k = .opening :: f.bare ++ [.closing] :=
  if_pos h

theorem lexemes_number (n : Numeral) : (number n).lexemes 0 = [.number n] := by
  rw [lexemes_of_le (Nat.le_refl 0), bare]

theorem lexemes_variable (x : Identifier) : («variable» x).lexemes 0 = [.name x] := by
  rw [lexemes_of_le (Nat.le_refl 0), bare]

theorem lexemes_neg (f : Formula) : (neg f).lexemes 1 = .minus :: f.lexemes 1 := by
  rw [lexemes_of_le (Nat.le_refl 1), bare]
  rfl

theorem lexemes_not (f : Formula) : (not f).lexemes 1 = .bang :: f.lexemes 1 := by
  rw [lexemes_of_le (Nat.le_refl 1), bare]
  rfl

/-- An operator and its operands. -/
theorem lexemes_binary (op : BinaryOp) (a b : Formula) : (binary op a b).lexemes op.rank =
    a.lexemes op.left ++ .operator op :: b.lexemes op.right := by
  have hbare : (binary op a b).lexemes op.rank = (binary op a b).bare :=
    lexemes_of_le (Nat.le_refl op.rank)
  rw [hbare, bare]
  rfl

theorem lexemes_call (x : Identifier) (args : List Formula) :
    (call x args).lexemes 0 = .name x :: .opening :: bareArgs args ++ [.closing] := by
  rw [lexemes_of_le (Nat.le_refl 0), bare]

/-- One more rank makes no difference to what is not of that rank. -/
theorem lexemes_succ {k : Nat} {f : Formula} (h : f.rank ≠ k + 1) :
    f.lexemes (k + 1) = f.lexemes k := by
  rcases Nat.lt_or_ge k f.rank with hlt | hge
  · rw [lexemes_of_lt hlt, lexemes_of_lt (by omega)]
  · rw [lexemes_of_le hge, lexemes_of_le (by omega)]

end Formula

/-! ## First characters -/

/-- The first character of lexemes. -/
def firstChar (ts : List Lexeme) : Option Char := ts.head?.bind fun t => t.text.head?

namespace Lexeme

/-- A lexeme starts with a character that is not white space. -/
theorem exists_text (t : Lexeme) : ∃ a cs, t.text = a :: cs ∧ isSpace a = false := by
  cases t with
  | number n =>
    obtain ⟨a, cs, h⟩ := List.exists_cons_of_ne_nil n.nonempty
    have ha : a.isDigit = true := n.digit a (h ▸ List.mem_cons_self)
    refine ⟨a, cs, h, Bool.eq_false_iff.2 ?_⟩
    rw [isDigit_iff] at ha
    rw [ne_eq, isSpace_iff]
    omega
  | name x =>
    have hx := x.starts
    refine ⟨x.first, x.rest, rfl, Bool.eq_false_iff.2 ?_⟩
    rw [isNameStart_iff] at hx
    rw [ne_eq, isSpace_iff]
    omega
  | operator op => cases op <;> exact ⟨_, _, rfl, by decide⟩
  | minus | bang | opening | closing | comma => exact ⟨_, _, rfl, by decide⟩

/-- The lexemes that an atom starts with. -/
def StartsAtom : Lexeme → Prop
  | .number _ | .name _ | .opening => True
  | _ => False

/-- The lexemes that a formula starts with. -/
def Starts (t : Lexeme) : Prop := t.StartsAtom ∨ t = .minus ∨ t = .bang

/-- What may follow a formula whose operators are of rank `k` or tighter. -/
def Follows (k : Nat) : Lexeme → Prop
  | .operator op => k < op.rank
  | .closing | .comma => True
  | _ => False

/-- An atom starts with no sign and no mark. -/
theorem StartsAtom.head {t : Lexeme} (h : t.StartsAtom) {a : Char} (ha : t.text.head? = some a) :
    a ∉ ['-', '+', '!', '=', ')'] := by
  have hcodes : a.toNat ≠ 45 ∧ a.toNat ≠ 43 ∧ a.toNat ≠ 33 ∧ a.toNat ≠ 61 ∧ a.toNat ≠ 41 := by
    cases t with
    | number n =>
      have hdigit : a.isDigit = true := n.digit a (List.mem_of_mem_head? ha)
      rw [isDigit_iff] at hdigit
      omega
    | name x =>
      have hx := x.starts
      rw [Option.some.inj ha, isNameStart_iff] at hx
      omega
    | opening => exact Option.some.inj ha ▸ by decide
    | operator op => exact h.elim
    | minus | bang | closing | comma => exact h.elim
  simpa [char_eq_iff] using hcodes

/-- No formula starts with what closes one or with an equals sign. -/
theorem Starts.head {t : Lexeme} (h : t.Starts) {a : Char} (ha : t.text.head? = some a) :
    a ∉ ['=', ')'] := by
  rcases h with h | rfl | rfl
  · have hatom := h.head ha
    simp only [List.mem_cons, List.not_mem_nil, or_false, not_or] at hatom ⊢
    exact ⟨hatom.2.2.2.1, hatom.2.2.2.2⟩
  · exact Option.some.inj ha ▸ by decide
  · exact Option.some.inj ha ▸ by decide

end Lexeme

namespace Formula

/-- Where only an atom may stand, what is written starts as an atom does. -/
theorem lexemes_startsAtom (f : Formula) : ∃ t ts, f.lexemes 0 = t :: ts ∧ t.StartsAtom := by
  rcases Nat.eq_zero_or_pos f.rank with h | h
  · rw [lexemes_of_le (Nat.le_of_eq h)]
    cases f with
    | number n | «variable» x | call x args =>
      rw [bare]
      exact ⟨_, _, rfl, trivial⟩
    | neg f => exact nomatch h
    | not f => exact nomatch h
    | binary op a b => exact absurd op.rank_pos (by rw [show op.rank = 0 from h]; decide)
  · exact ⟨_, _, lexemes_of_lt h, trivial⟩

theorem bare_starts : (f : Formula) → ∃ t ts, f.bare = t :: ts ∧ t.Starts
  | .number _ | .variable _ | .call _ _ => by
    rw [bare]
    exact ⟨_, _, rfl, .inl trivial⟩
  | .neg _ => by
    rw [bare]
    exact ⟨_, _, rfl, .inr (.inl rfl)⟩
  | .not _ => by
    rw [bare]
    exact ⟨_, _, rfl, .inr (.inr rfl)⟩
  | .binary op a b => by
    obtain ⟨t, ts, ha, ht⟩ := a.bare_starts
    rw [bare, bracketed, ha]
    split
    · exact ⟨_, _, rfl, .inl trivial⟩
    · exact ⟨_, _, rfl, ht⟩

/-- Wherever a formula stands, what is written starts as a formula does. -/
theorem lexemes_starts (k : Nat) (f : Formula) : ∃ t ts, f.lexemes k = t :: ts ∧ t.Starts := by
  rcases Nat.lt_or_ge k f.rank with hlt | hge
  · exact ⟨_, _, lexemes_of_lt hlt, .inl trivial⟩
  · rw [lexemes_of_le hge]
    exact f.bare_starts

theorem firstChar_lexemes {k : Nat} {f : Formula} {ts : List Lexeme} {a : Char}
    (ha : firstChar (f.lexemes k ++ ts) = some a) : a ∉ ['=', ')'] := by
  obtain ⟨t, us, h, ht⟩ := f.lexemes_starts k
  rw [h] at ha
  exact ht.head ha

theorem firstChar_bareArgs {f : Formula} {fs : List Formula} {ts : List Lexeme} {a : Char}
    (ha : firstChar (bareArgs (f :: fs) ++ ts) = some a) : a ∉ ['=', ')'] := by
  have hlexemes : f.lexemes 6 = f.bare := lexemes_of_le f.rank_le
  cases fs with
  | nil =>
    rw [bareArgs, ← hlexemes] at ha
    exact firstChar_lexemes ha
  | cons g fs =>
    rw [bareArgs, ← hlexemes, List.append_assoc] at ha
    exact firstChar_lexemes ha

/-! ## Depth -/

/-- The links of rank `k` on the left of a formula: its operator, that of its left operand, and so
on. -/
def links (k : Nat) : Formula → Nat
  | .binary op a _ => if op.rank = k then a.links k + 1 else 0
  | _ => 0

/-- How far the counter of depth rises over a formula of rank `r` where ranks up to `k` may stand,
if it rises by `n` over the formula alone: an atom and a pair of parentheses are one level down. -/
def rise (k r n : Nat) : Nat := if r = 0 ∨ k < r then n + 1 else n

mutual

/-- How far the counter of depth rises over a formula that stands alone. -/
def need : Formula → Nat
  | .number _ | .variable _ => 0
  | .neg f | .not f => rise 1 f.rank f.need + 1
  | .binary op a b =>
    if op.rank = 1 then max a.need (rise 1 b.rank b.need) + 1
    else if op.rank = 4 then max (rise 3 a.rank a.need) (rise 3 b.rank b.need)
    else max (rise op.rank a.rank a.need)
      (a.links op.rank + 1 + rise (op.rank - 1) b.rank b.need)
  | .call _ args => needArgs args

/-- How far it rises over arguments. -/
def needArgs : List Formula → Nat
  | [] => 0
  | f :: fs => max (rise 6 f.rank f.need) (needArgs fs)

end

/-- How far the counter of depth rises over a formula where ranks up to `k` may stand. -/
def needIn (k : Nat) (f : Formula) : Nat := rise k f.rank f.need

theorem needIn_of_le {k : Nat} {f : Formula} (h0 : 1 ≤ f.rank) (h : f.rank ≤ k) :
    f.needIn k = f.need :=
  if_neg (by omega)

theorem needIn_succ {k : Nat} {f : Formula} (h : f.rank ≠ k + 1) :
    f.needIn (k + 1) = f.needIn k := by
  unfold needIn rise
  by_cases hdown : f.rank = 0 ∨ k < f.rank
  · rw [if_pos hdown, if_pos (by omega)]
  · rw [if_neg hdown, if_neg (by omega)]

/-- Where only an atom may stand, and where a sign may stand in front of it. -/
theorem needIn_one {f : Formula} (h : f.rank ≠ 1) : f.needIn 1 = f.need + 1 :=
  if_pos (by omega)

section

variable {op : BinaryOp} {a b : Formula}

theorem needIn_binary (op : BinaryOp) (a b : Formula) :
    (binary op a b).needIn op.rank = (binary op a b).need :=
  needIn_of_le (f := binary op a b) op.rank_pos (Nat.le_refl op.rank)

theorem needIn_neg (f : Formula) : (neg f).needIn 1 = f.needIn 1 + 1 := by
  have hneed : (neg f).needIn 1 = (neg f).need := needIn_of_le (Nat.le_refl 1) (Nat.le_refl 1)
  rw [hneed, need]
  rfl

theorem needIn_not (f : Formula) : (not f).needIn 1 = f.needIn 1 + 1 := by
  have hneed : (not f).needIn 1 = (not f).need := needIn_of_le (Nat.le_refl 1) (Nat.le_refl 1)
  rw [hneed, need]
  rfl

theorem needIn_power : (binary .pow a b).needIn 1 = max a.need (b.needIn 1) + 1 := by
  have hneed : (binary .pow a b).needIn 1 = (binary .pow a b).need := needIn_binary .pow a b
  rw [hneed, need]
  exact if_pos rfl

theorem needIn_comparison (h : op.rank = 4) :
    (binary op a b).needIn op.rank = max (a.needIn 3) (b.needIn 3) := by
  rw [needIn_binary, need, if_neg (by omega), if_pos h]
  rfl

theorem needIn_chain (h : BinaryOp.Chains op.rank) : (binary op a b).needIn op.rank =
    max (a.needIn op.rank) (a.links op.rank + 1 + b.needIn (op.rank - 1)) := by
  have hrank : op.rank ≠ 1 ∧ op.rank ≠ 4 := by
    unfold BinaryOp.Chains at h
    omega
  rw [needIn_binary, need, if_neg hrank.1, if_neg hrank.2]
  rfl

end

theorem links_of_ne {k : Nat} {f : Formula} (h : f.rank ≠ k) : f.links k = 0 := by
  cases f with
  | binary op a b => exact if_neg h
  | number n => rfl
  | «variable» x => rfl
  | neg f => rfl
  | not f => rfl
  | call x args => rfl

theorem needIn_le (k : Nat) (f : Formula) : f.needIn k ≤ f.need + 1 := by
  unfold needIn rise
  split
  · exact Nat.le_refl _
  · exact Nat.le_succ _

theorem links_le_height (k : Nat) : (f : Formula) → f.links k ≤ f.height
  | .binary op a b => by
    have ih := links_le_height k a
    unfold links height
    split
    · omega
    · exact Nat.zero_le _
  | .number _ | .variable _ | .neg _ | .not _ | .call _ _ => Nat.zero_le _

/-- The bound on the depth, as it grows with the height. -/
theorem bound_mono {m n : Nat} (h : m ≤ n) : m * (m + 3) ≤ n * (n + 3) :=
  Nat.mul_le_mul h (Nat.add_le_add_right h 3)

theorem bound_succ (n : Nat) : (n + 1) * (n + 1 + 3) = n * (n + 3) + 2 * n + 4 := by
  ring

mutual

/-- **The counter of depth rises with the square of the height at most.** A chain adds its links to
the depth of each operand. -/
theorem need_le : (f : Formula) → 2 * f.need ≤ f.height * (f.height + 3)
  | .number _ | .variable _ => Nat.zero_le _
  | .neg f | .not f => by
    have ih := f.need_le
    have hrise : rise 1 f.rank f.need ≤ f.need + 1 := f.needIn_le 1
    have hbound := bound_succ f.height
    simp only [need, height]
    omega
  | .binary op a b => by
    have ha := a.need_le
    have hb := b.need_le
    have hlinks := a.links_le_height op.rank
    have hleft (k : Nat) : rise k a.rank a.need ≤ a.need + 1 := a.needIn_le k
    have hright (k : Nat) : rise k b.rank b.need ≤ b.need + 1 := b.needIn_le k
    have hmaxa := bound_mono (Nat.le_max_left a.height b.height)
    have hmaxb := bound_mono (Nat.le_max_right a.height b.height)
    have hbound := bound_succ (max a.height b.height)
    have hr1 := hright 1
    have hl3 := hleft 3
    have hr3 := hright 3
    have hlk := hleft op.rank
    have hrk := hright (op.rank - 1)
    have hla := Nat.le_max_left a.height b.height
    simp only [need, height]
    split
    · omega
    split
    · omega
    · omega
  | .call _ args => by
    have ih := needArgs_le args
    simp only [need, height]
    exact ih

theorem needArgs_le : (fs : List Formula) → 2 * needArgs fs ≤ heights fs * (heights fs + 3)
  | [] => Nat.zero_le _
  | f :: fs => by
    have hf := f.need_le
    have hfs := needArgs_le fs
    have hrise : rise 6 f.rank f.need ≤ f.need + 1 := f.needIn_le 6
    have hbound := bound_succ f.height
    have hmaxf := bound_mono (Nat.le_max_left (f.height + 1) (heights fs))
    have hmaxs := bound_mono (Nat.le_max_right (f.height + 1) (heights fs))
    simp only [needArgs, heights]
    omega

end

/-- A formula of height 15 or less fits. -/
theorem needIn_le_maxDepth {f : Formula} (h : f.height ≤ 15) (k : Nat) :
    f.needIn k ≤ Expr.maxDepth := by
  have hneed := f.need_le
  have hmono := bound_mono h
  have hrise := f.needIn_le k
  have hmax : Expr.maxDepth = 256 := rfl
  omega

end Formula

end VoxelEdit
