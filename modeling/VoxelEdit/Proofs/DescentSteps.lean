import VoxelEdit.Proofs.DescentScans
import VoxelEdit.Proofs.ReaderSuccess

/-!
# Steps where a cursor stands

`stand` is the machine at the place and the depth of a cursor of the readers. What it does next there
is said here in terms of what the readers look for among the characters: an operator (`step_loop`,
`step_comparison`), a caret, a parenthesis or a comma (`step_base`, `step_group`, `step_argument`), a
sign (`step_signs`, `signed_cases`), and the first character of an atom (`step_atom`, `step_number`,
`named_place`).
-/

namespace VoxelEdit.Descent

open VoxelEdit.Expr Number Text

variable {stack : List Frame} {c : Cursor} {a : Char} {rest : List Char}

/-- The machine where a cursor stands. -/
def stand (control : Control) (stack : List Frame) (c : Cursor) : State :=
  ⟨control, stack, c.place, c.depth⟩

theorem enter_place (control : Control) (p : Place) (f : Frame) {d : Cursor} (h : d.depth = c.depth) :
    State.enter ⟨control, stack, p, c.depth⟩ f d.place =
      match d.enter with
      | .ok d => stand (.call f.awaits) (f :: stack) d
      | .error e => ⟨.refuse e, stack, d.place, d.depth + 1⟩ := by
  rw [← h]
  unfold State.enter Cursor.enter
  dsimp only
  by_cases hdeep : maxDepth < d.depth + 1
  · rw [if_pos hdeep, if_pos (by omega)]
    rfl
  · rw [if_neg hdeep, if_neg (by omega)]
    rfl

theorem stand_skipSpace (control : Control) (stack : List Frame) (c : Cursor) :
    (stand control stack c).place.skipSpace = c.skip.place := c.skipSpace_place

theorem eat?_skip {token : List Char} (ht : Cursor.Narrow token) (c : Cursor) :
    c.skip.place.eat? token = (c.skip.eat? token).map Cursor.place := Cursor.eat?_place ht c.skip

/-- A chain goes on one level deeper, or gives its links back. -/
theorem step_loop (r links : Nat) (lhs : Expr) (stack : List Frame) (c : Cursor) :
    step (stand (.loop r links lhs) stack c) =
      match nextOperator (operators (r + 1)) c.skip with
      | none => ⟨.answer lhs, stack, c.skip.place, c.depth - links⟩
      | some (op, d) =>
        match d.enter with
        | .ok d => stand (.call (.row r)) (.link r (links + 1) op lhs :: stack) d
        | .error e => ⟨.refuse e, stack, d.place, d.depth + 1⟩ := by
  show State.looped _ r links lhs = _
  rw [State.looped, stand_skipSpace, operator?_place]
  cases hop : nextOperator (operators (r + 1)) c.skip with
  | none => rfl
  | some w => exact enter_place _ _ (.link r (links + 1) w.1 lhs) (nextOperator_eq_some hop).1

/-- Where nothing but the cursor has moved on. -/
theorem mk_eq_stand (control : Control) (stack : List Frame) {d : Cursor} (h : d.depth = c.depth) :
    (⟨control, stack, d.place, c.depth⟩ : State) = stand control stack d := by
  rw [stand, h]

/-- A comparison waits for a second operand if an operator comes next. -/
theorem step_comparison (e : Expr) (stack : List Frame) (c : Cursor) :
    step (stand (.answer e) (.first 2 :: stack) c) =
      match nextOperator (operators comparison) c.skip with
      | none => stand (.answer e) stack c.skip
      | some (op, d) => stand (.call (.row 2)) (.compared op e :: stack) d := by
  show (stand (.answer e) stack c).answered e (.first 2) = _
  rw [State.answered, if_pos (show 2 + 1 = comparison from rfl)]
  dsimp only
  rw [stand_skipSpace, operator?_place]
  cases hop : nextOperator (operators comparison) c.skip with
  | none => rfl
  | some w => exact mk_eq_stand _ _ (nextOperator_eq_some hop).1

/-- A power waits for an exponent if a caret comes next. -/
theorem step_base (e : Expr) (stack : List Frame) (c : Cursor) :
    step (stand (.answer e) (.base :: stack) c) =
      match c.skip.eat? ['^'] with
      | none => stand (.answer e) stack c.skip
      | some d => stand (.call (.row 0)) (.exponent e :: stack) d := by
  show (stand (.answer e) stack c).answered e .base = _
  rw [State.answered, stand_skipSpace, eat?_skip (by simp [Cursor.Narrow])]
  cases heat : c.skip.eat? ['^'] with
  | none => rfl
  | some d => exact mk_eq_stand _ _ (Cursor.eat?_skip_depth heat)

theorem step_group (e : Expr) (stack : List Frame) (c : Cursor) :
    step (stand (.answer e) (.group :: stack) c) =
      match c.skip.eat? [')'] with
      | none => stand (.refuse (.malformed c.skip.pos .openParenthesis)) stack c.skip
      | some d => stand (.answer e) stack d := by
  show (stand (.answer e) stack c).answered e .group = _
  rw [State.answered, stand_skipSpace, eat?_skip (by simp [Cursor.Narrow])]
  cases heat : c.skip.eat? [')'] with
  | none => rfl
  | some d => exact mk_eq_stand _ _ (Cursor.eat?_skip_depth heat)

theorem step_argument (name : String) (args : List Expr) (e : Expr) (stack : List Frame) (c : Cursor) :
    step (stand (.answer e) (.argument name args :: stack) c) =
      match c.skip.eat? [')'] with
      | some d => stand (.answer (.call name (args ++ [e]))) stack d
      | none =>
        match c.skip.eat? [','] with
        | none => stand (.refuse (.malformed c.skip.pos .openArguments)) stack c.skip
        | some d => stand (.call (.row loosest)) (.argument name (args ++ [e]) :: stack) d := by
  show (stand (.answer e) stack c).answered e (.argument name args) = _
  rw [State.answered, stand_skipSpace, eat?_skip (by simp [Cursor.Narrow]),
    eat?_skip (by simp [Cursor.Narrow])]
  cases hclose : c.skip.eat? [')'] with
  | some d => exact mk_eq_stand _ _ (Cursor.eat?_skip_depth hclose)
  | none =>
    cases hcomma : c.skip.eat? [','] with
    | none => rfl
    | some d => exact mk_eq_stand _ _ (Cursor.eat?_skip_depth hcomma)

theorem step_call_row (stack : List Frame) (c : Cursor) :
    step (stand (.call (.row 0)) stack c) =
      match c.enter with
      | .ok d => stand (.call .signs) (.checked :: stack) d
      | .error e => ⟨.refuse e, stack, c.place, c.depth + 1⟩ := enter_place _ _ .checked rfl

/-- The sign that comes next among the characters. -/
def signOf? : List Char → Option Sign
  | [] => none
  | a :: rest =>
    if a = '-' then some .minus
    else if a = '+' then some .plus
    else if a = '!' && rest.head? ≠ some '=' then some .bang
    else none

theorem sign?_place (c : Cursor) : sign? c.place = signOf? c.rest := by
  unfold sign?
  simp only [Cursor.peek?_place (c := c) (a := '-') (by decide),
    Cursor.peek?_place (c := c) (a := '+') (by decide)]
  cases hr : c.rest with
  | nil => simp [Cursor.peek?_nil hr, signOf?]
  | cons a rest =>
    by_cases hbang : a = '!'
    · subst hbang
      have hequals : c.place.peek? 1 = some '=' ↔ rest.head? = some '=' := by
        rw [Cursor.peek?_one hr (by decide)]
        exact Cursor.peek?_place (by decide)
      have hmark : c.place.peek? 0 = some '!' := (Cursor.peek?_place (by decide)).2 (by rw [hr]; rfl)
      simp [signOf?, hequals, hmark]
    · have hmark : c.place.peek? 0 ≠ some '!' := by
        rw [ne_eq, Cursor.peek?_place (by decide), hr]
        simpa using hbang
      simp [signOf?, hmark, hbang]

theorem step_signs (stack : List Frame) (c : Cursor) :
    step (stand (.call .signs) stack c) =
      match signOf? c.skip.rest with
      | some sign => ⟨.call (.row 0), .signed sign :: stack, c.skip.place.skip 1, c.depth⟩
      | none => stand (.call .power) (.unsigned :: stack) c.skip := by
  show (stand (.call .signs) stack c).called .signs = _
  rw [State.called, stand_skipSpace, sign?_place]
  cases signOf? c.skip.rest <;> rfl

/-- What a reader makes of a sign, and of what comes without one. -/
theorem signed_cases {d : Cursor} (hd : c.enter = .ok d) :
    (∃ sign a rest, signOf? d.skip.rest = some sign ∧ d.skip.rest = a :: rest ∧ a.toNat < 128 ∧
      answer (signed c) = (answer (signed (d.skip.advance [a] rest))).map
        fun x => (sign.apply x.1, x.2.leave 1)) ∨
    signOf? d.skip.rest = none ∧
      answer (signed c) = (answer (power d.skip)).map fun x => (x.1, x.2.leave 1) := by
  by_cases hnil : d.skip.rest = []
  · exact .inr ⟨by rw [hnil]; rfl, signed_power hd (by simp [hnil])⟩
  obtain ⟨a, rest, hr⟩ := List.exists_cons_of_ne_nil hnil
  by_cases hminus : a = '-'
  · subst hminus
    exact .inl ⟨.minus, '-', rest, by rw [hr]; rfl, hr, by decide, signed_minus hd hr⟩
  by_cases hplus : a = '+'
  · subst hplus
    exact .inl ⟨.plus, '+', rest, by rw [hr]; rfl, hr, by decide, signed_plus hd hr⟩
  by_cases hbang : a = '!'
  · subst hbang
    by_cases hequals : rest.head? = some '='
    · -- no power is found there, either
      refine .inr ⟨by simp [hr, signOf?, hequals], ?_⟩
      rw [signed_unequal hd hr hequals, power_eq, atom_foreign hr (by decide) (by decide) (by decide)]
      rfl
    · exact .inl ⟨.bang, '!', rest, by simp [hr, signOf?, hequals], hr, by decide,
        signed_bang hd hr hequals⟩
  · refine .inr ⟨by simp [hr, signOf?, hminus, hplus, hbang], signed_power hd ?_⟩
    rw [hr]
    rintro b ⟨⟩
    exact ⟨hminus, hplus, hbang⟩

/-- What is called for at an atom, from its first character on. -/
theorem step_atom (stack : List Frame) (hskip : c.skip = c)
    (hpeek : c.place.peek? 0 = some a) :
    step (stand (.call .atom) stack c) =
      if a = '(' then ⟨.call (.row loosest), .group :: stack, c.place.skip 1, c.depth⟩
      else if isDigitOrPoint a then stand (.call .number) (.digits :: stack) c
      else if a.isAlpha || a = '_' then (stand (.call .atom) stack c).named c.place
      else stand (.refuse (.malformed c.pos .foreignCharacter)) stack c := by
  show (stand (.call .atom) stack c).called .atom = _
  rw [State.called, stand_skipSpace, hskip, hpeek]
  rfl

theorem step_number (stack : List Frame) (c : Cursor) :
    step (stand (.call .number) stack c) =
      match double? (numberText c.rest).1 with
      | some v =>
        stand (.answer (.number v)) stack (c.advance (numberText c.rest).1 (numberText c.rest).2)
      | none =>
        stand (.refuse (.malformed c.pos (.badNumber (String.ofList (numberText c.rest).1)))) stack
          (c.advance (numberText c.rest).1 (numberText c.rest).2) := by
  obtain ⟨hparts, hnarrow⟩ := Cursor.numberText_append c.rest
  show (stand (.call .number) stack c).called .number = _
  have hplace : (stand (.call .number) stack c).place = c.place := rfl
  rw [State.called, hplace, Cursor.skipNumber_place, Cursor.textUntil_place hparts hnarrow]
  cases double? (numberText c.rest).1 <;> rfl

theorem named_place (hr : c.rest = a :: rest) (ha : isWord a = true) :
    (stand (.call .atom) stack c).named c.place =
      let d := (c.advance (a :: rest.takeWhile isWord) (rest.dropWhile isWord)).skip
      let name := String.ofList (a :: rest.takeWhile isWord)
      match d.eat? ['('] with
      | none => stand (.answer (.variable name)) stack d
      | some f =>
        match f.skip.eat? [')'] with
        | some k => stand (.answer (.call name [])) stack k
        | none => stand (.call (.row loosest)) (.argument name [] :: stack) f.skip := by
  have htake : c.rest.takeWhile isWord = a :: rest.takeWhile isWord := by
    rw [hr, List.takeWhile_cons_of_pos ha]
  have hdrop : c.rest.dropWhile isWord = rest.dropWhile isWord := by
    rw [hr, List.dropWhile_cons_of_pos ha]
  have hparts : c.rest = (a :: rest.takeWhile isWord) ++ rest.dropWhile isWord := by
    rw [← htake, ← hdrop, List.takeWhile_append_dropWhile]
  have hnarrow : Cursor.Narrow (a :: rest.takeWhile isWord) := by
    rw [← htake]
    exact Cursor.narrow_takeWhile (fun _ => isWord_wide) _
  rw [State.named, Cursor.place_span isWord_coarse, htake, hdrop, Cursor.textUntil_place hparts hnarrow,
    Cursor.skipSpace_place, eat?_skip (by simp [Cursor.Narrow])]
  dsimp only
  cases hopen : (c.advance (a :: rest.takeWhile isWord) (rest.dropWhile isWord)).skip.eat? ['('] with
  | none => rfl
  | some f =>
    have hf := Cursor.eat?_skip_depth hopen
    dsimp only [Option.map_some]
    rw [Cursor.skipSpace_place, eat?_skip (by simp [Cursor.Narrow])]
    cases hclose : f.skip.eat? [')'] with
    | none => exact mk_eq_stand _ _ hf
    | some k => exact mk_eq_stand _ _ ((Cursor.eat?_skip_depth hclose).trans hf)

end VoxelEdit.Descent
