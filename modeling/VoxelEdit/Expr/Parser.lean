import VoxelEdit.Expr.Basic
import VoxelEdit.Number.Decimal
import VoxelEdit.Text.Blank
import VoxelEdit.Text.Class

/-!
# Reading formulas

Operators bind in six ranks. From loosest to tightest: `||`, `&&`, one comparison, `+ -`,
`* / %`, the signs `-`, `+` and `!`, and `^`, which takes a signed formula on its right. The
ranks of rows are numbered from the tightest row up; rank 0 is a signed formula.

A counter of depth goes up by one for each sign or operand on the way in and for each link of
a chain of operators; a reader puts it back before it succeeds. It never exceeds `maxDepth`,
which bounds the height of the tree.

A reader that succeeds has consumed at least one character, and says so in its result.
-/

namespace VoxelEdit.Expr

open Number Text

/-- The deepest nesting, with links of operator chains counted in. -/
def maxDepth : Nat := 256

/-- Where a reader stands: the characters to come, the bytes already read and the depth. -/
structure Cursor where
  rest : List Char
  pos : Nat
  depth : Nat
deriving DecidableEq, Repr

namespace Cursor

/-- An error at the cursor. -/
def fault (c : Cursor) (f : SyntaxFault) : EvalError := .malformed c.pos f

/-- One level deeper, if that is allowed. -/
def enter (c : Cursor) : Except EvalError Cursor :=
  let c := { c with depth := c.depth + 1 }
  if c.depth > maxDepth then .error (c.fault .tooDeep) else .ok c

/-- `n` levels back up. -/
def leave (c : Cursor) (n : Nat) : Cursor := { c with depth := c.depth - n }

/-- Past the characters `cs`, with `rest` to come. -/
def advance (c : Cursor) (cs rest : List Char) : Cursor :=
  { c with rest, pos := c.pos + byteLength cs }

/-- Past white space. -/
def skip (c : Cursor) : Cursor :=
  c.advance (c.rest.takeWhile isSpace) (c.rest.dropWhile isSpace)

/-- Past `token`, if it comes next. -/
def eat? (c : Cursor) (token : List Char) : Option Cursor :=
  if token.isPrefixOf c.rest then some (c.advance token (c.rest.drop token.length)) else none

theorem skip_length_le (c : Cursor) : c.skip.rest.length ≤ c.rest.length :=
  (List.dropWhile_sublist _).length_le

theorem enter_rest {c d : Cursor} (h : c.enter = .ok d) : d.rest = c.rest := by
  unfold enter at h
  dsimp only at h
  split at h
  · cases h
  · cases h; rfl

theorem eat?_length_le {c d : Cursor} {token : List Char} (h : c.eat? token = some d) :
    d.rest.length + token.length = c.rest.length := by
  unfold eat? at h
  split at h
  · rename_i hp
    cases h
    have := (List.isPrefixOf_iff_prefix.1 hp).length_le
    simp [advance]
    omega
  · cases h

end Cursor

/-- A formula read from at most `n` characters: less than `n` of them are left. -/
structure Read (n : Nat) where
  expr : Expr
  next : Cursor
  shorter : next.rest.length < n

/-- The arguments of a call, read from at most `n` characters. -/
structure ReadArgs (n : Nat) where
  args : List Expr
  next : Cursor
  shorter : next.rest.length < n

/-- The rank of the loosest row. -/
def loosest : Nat := 5

/-- The rank of the row whose operators do not chain. -/
def comparison : Nat := 3

/-- The operators of a row, the longer tokens first. -/
def operators : Nat → List (List Char × BinaryOp)
  | 1 => [(['*'], .mul), (['/'], .div), (['%'], .rem)]
  | 2 => [(['+'], .add), (['-'], .sub)]
  | 3 => [(['<', '='], .le), (['>', '='], .ge), (['=', '='], .eq), (['!', '='], .ne),
      (['<'], .lt), (['>'], .gt)]
  | 4 => [(['&', '&'], .and)]
  | 5 => [(['|', '|'], .or)]
  | _ => []

/-- The operator of a list that comes next, and the cursor past it. -/
def operator? (ops : List (List Char × BinaryOp)) (c : Cursor) :
    Option (BinaryOp × { d : Cursor // d.rest.length < c.rest.length }) :=
  match ops with
  | [] => none
  | (token, op) :: ops =>
    match c.eat? token with
    | some d =>
      if h : d.rest.length < c.rest.length then some (op, ⟨d, h⟩) else operator? ops c
    | none => operator? ops c

/-- The characters of a number: digits and points, and an exponent if one follows. -/
def numberText (cs : List Char) : List Char × List Char :=
  let whole := cs.takeWhile isDigitOrPoint
  match cs.dropWhile isDigitOrPoint with
  | e :: s :: rest =>
    if (e = 'e' || e = 'E') && (s.isDigit || s = '-' || s = '+') then
      (whole ++ e :: s :: rest.takeWhile isDigitOrPoint, rest.dropWhile isDigitOrPoint)
    else (whole, e :: s :: rest)
  | rest => (whole, rest)

theorem numberText_length (cs : List Char) :
    (numberText cs).1.length + (numberText cs).2.length = cs.length := by
  have split (ds : List Char) :
      (ds.takeWhile isDigitOrPoint).length + (ds.dropWhile isDigitOrPoint).length = ds.length := by
    rw [← List.length_append, List.takeWhile_append_dropWhile]
  have whole := split cs
  unfold numberText
  dsimp only
  split
  · rename_i e s rest h
    have tail := split rest
    rw [h] at whole
    split <;> simp at whole ⊢ <;> omega
  · exact whole

theorem numberText_rest_lt {a : Char} {rest : List Char} (h : isDigitOrPoint a = true) :
    (numberText (a :: rest)).2.length < rest.length + 1 := by
  have total := numberText_length (a :: rest)
  have some : 0 < (numberText (a :: rest)).1.length := by
    unfold numberText
    simp only [List.takeWhile_cons, h]
    split
    · split <;> simp
    · simp
  simp at total
  omega

mutual

/-- A formula whose operators are of rank `r` or tighter. -/
def level (r : Nat) (c : Cursor) : Except EvalError (Read c.rest.length) :=
  match r with
  | 0 => signed c
  | r + 1 =>
    match level r c with
    | .error e => .error e
    | .ok ⟨lhs, next, h⟩ =>
      have hd : next.skip.rest.length < c.rest.length := Nat.lt_of_le_of_lt next.skip_length_le h
      if r + 1 = comparison then
        match operator? (operators (r + 1)) next.skip with
        | none => .ok ⟨lhs, next.skip, hd⟩
        | some (op, ⟨f, hf⟩) =>
          match level r f with
          | .error e => .error e
          | .ok ⟨rhs, next, h⟩ => .ok ⟨.binary op lhs rhs, next, by omega⟩
      else
        match chain r 0 lhs next.skip with
        | .error e => .error e
        | .ok ⟨e, next, h⟩ => .ok ⟨e, next, by omega⟩
termination_by 16 * c.rest.length + 2 * r + 3

/-- The links of a chain of operators of rank `r + 1`, after `links` of them; each operand is of
rank `r`. -/
def chain (r links : Nat) (lhs : Expr) (c : Cursor) :
    Except EvalError (Read (c.rest.length + 1)) :=
  match operator? (operators (r + 1)) c with
  | none => .ok ⟨lhs, c.leave links, by simp [Cursor.leave]⟩
  | some (op, ⟨d, hd⟩) =>
    match he : d.enter with
    | .error e => .error e
    | .ok f =>
      have hf : f.rest.length = d.rest.length := by rw [Cursor.enter_rest he]
      match level r f with
      | .error e => .error e
      | .ok ⟨rhs, next, h⟩ =>
        have hg : next.skip.rest.length < f.rest.length :=
          Nat.lt_of_le_of_lt next.skip_length_le h
        match chain r (links + 1) (.binary op lhs rhs) next.skip with
        | .error e => .error e
        | .ok ⟨e, next, h⟩ => .ok ⟨e, next, by omega⟩
termination_by 16 * c.rest.length + 2 * r + 4

/-- A formula with any number of signs in front. -/
def signed (c : Cursor) : Except EvalError (Read c.rest.length) :=
  match he : c.enter with
  | .error e => .error e
  | .ok d =>
    have hd : d.rest = c.rest := Cursor.enter_rest he
    have hf : d.skip.rest.length ≤ c.rest.length := hd ▸ d.skip_length_le
    match hr : d.skip.rest with
    | '-' :: rest =>
      have : rest.length + 1 = d.skip.rest.length := by rw [hr]; rfl
      match signed (d.skip.advance ['-'] rest) with
      | .error e => .error e
      | .ok ⟨e, next, h⟩ =>
        .ok ⟨.neg e, next.leave 1, by simp only [Cursor.advance, Cursor.leave] at h ⊢; omega⟩
    | '+' :: rest =>
      have : rest.length + 1 = d.skip.rest.length := by rw [hr]; rfl
      match signed (d.skip.advance ['+'] rest) with
      | .error e => .error e
      | .ok ⟨e, next, h⟩ =>
        .ok ⟨e, next.leave 1, by simp only [Cursor.advance, Cursor.leave] at h ⊢; omega⟩
    | '!' :: rest =>
      have : rest.length + 1 = d.skip.rest.length := by rw [hr]; rfl
      -- `!=` at the front is no sign, and no atom either
      if rest.head? = some '=' then .error (d.skip.fault .foreignCharacter)
      else
        match signed (d.skip.advance ['!'] rest) with
        | .error e => .error e
        | .ok ⟨e, next, h⟩ =>
          .ok ⟨.not e, next.leave 1, by simp only [Cursor.advance, Cursor.leave] at h ⊢; omega⟩
    | _ =>
      match power d.skip with
      | .error e => .error e
      | .ok ⟨e, next, h⟩ => .ok ⟨e, next.leave 1, by simp only [Cursor.leave]; omega⟩
termination_by 16 * c.rest.length + 2
decreasing_by all_goals (try simp only [Cursor.advance]); omega

/-- An atom, and an exponent if one follows. -/
def power (c : Cursor) : Except EvalError (Read c.rest.length) :=
  match atom c with
  | .error e => .error e
  | .ok ⟨base, next, h⟩ =>
    let d := next.skip
    have hd : d.rest.length < c.rest.length := Nat.lt_of_le_of_lt next.skip_length_le h
    match he : d.eat? ['^'] with
    | none => .ok ⟨base, d, hd⟩
    | some f =>
      have hf := Cursor.eat?_length_le he
      match signed f with
      | .error e => .error e
      | .ok ⟨e, next, h⟩ => .ok ⟨.binary .pow base e, next, by omega⟩
termination_by 16 * c.rest.length + 1
decreasing_by all_goals (try simp at hf); omega

/-- A formula in parentheses, a number, a name or a call. -/
def atom (c : Cursor) : Except EvalError (Read c.rest.length) :=
  match hr : c.rest with
  | [] => .error (c.fault .endOfText)
  | a :: rest =>
    have hc : rest.length + 1 = c.rest.length := by rw [hr]; rfl
    if a = '(' then
      match level loosest (c.advance ['('] rest) with
      | .error e => .error e
      | .ok ⟨e, next, h⟩ =>
        let d := next.skip
        match he : d.eat? [')'] with
        | none => .error (d.fault .openParenthesis)
        | some f =>
          have hf := Cursor.eat?_length_le he
          have hd := next.skip_length_le
          .ok ⟨e, f, by simp [Cursor.advance, d] at h hf hd ⊢; omega⟩
    else if hn : isDigitOrPoint a then
      have shorter := numberText_rest_lt hn
      let text := (numberText (a :: rest)).1
      match double? text with
      | none => .error (c.fault (.badNumber (String.ofList text)))
      | some v =>
        .ok ⟨.number v, c.advance text (numberText (a :: rest)).2, by
          simp only [Cursor.advance]; simpa using shorter⟩
    else if a.isAlpha || a = '_' then
      let word := a :: rest.takeWhile isWord
      let name := String.ofList word
      let after := rest.dropWhile isWord
      have ha : after.length ≤ rest.length := (List.dropWhile_sublist _).length_le
      let d := (c.advance word after).skip
      have hd : d.rest.length ≤ after.length := (c.advance word after).skip_length_le
      match he : d.eat? ['('] with
      | none => .ok ⟨.variable name, d, by simp; omega⟩
      | some f =>
        have hf := Cursor.eat?_length_le he
        let g := f.skip
        have hg := f.skip_length_le
        match he : g.eat? [')'] with
        | some k =>
          have hk := Cursor.eat?_length_le he
          .ok ⟨.call name [], k, by simp [d, g] at hd hf hk ⊢; omega⟩
        | none =>
          match arguments g with
          | .error e => .error e
          | .ok ⟨args, next, h⟩ => .ok ⟨.call name args, next, by simp [d, g] at hd hf h ⊢; omega⟩
    else .error (c.fault .foreignCharacter)
termination_by 16 * c.rest.length
decreasing_by
  · simp only [Cursor.advance, loosest]; omega
  · simp [Cursor.advance, loosest, d] at hd hf hg ⊢; omega

/-- One argument or more, up to the closing parenthesis. -/
def arguments (c : Cursor) : Except EvalError (ReadArgs c.rest.length) :=
  match level loosest c with
  | .error e => .error e
  | .ok ⟨e, next, h⟩ =>
    let d := next.skip
    have hd : d.rest.length < c.rest.length := Nat.lt_of_le_of_lt next.skip_length_le h
    match he : d.eat? [')'] with
    | some f =>
      have hf := Cursor.eat?_length_le he
      .ok ⟨[e], f, by omega⟩
    | none =>
      match he : d.eat? [','] with
      | none => .error (d.fault .openArguments)
      | some f =>
        have hf := Cursor.eat?_length_le he
        match arguments f with
        | .error e => .error e
        | .ok ⟨es, next, h⟩ => .ok ⟨e :: es, next, by omega⟩
termination_by 16 * c.rest.length + 2 * loosest + 4
decreasing_by all_goals (try simp at hf); omega

end

/-- Reads a whole text as a formula. -/
def parse (text : String) : Except EvalError Expr :=
  match level loosest ⟨text.toList, 0, 0⟩ with
  | .error e => .error e
  | .ok ⟨e, next, _⟩ =>
    let c := next.skip
    if c.rest.isEmpty then .ok e else .error (c.fault .trailingText)

end VoxelEdit.Expr
