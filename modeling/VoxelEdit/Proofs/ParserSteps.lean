import VoxelEdit.Expr.Parser
import VoxelEdit.Proofs.CharacterClasses

/-!
# One step of each reader of formulas

The readers of formulas carry the proof that they consume something, which makes their answers
depend on where they stand. `answer` forgets that part. Each equation here says what one reader
answers in terms of the readers that it calls.
-/

namespace VoxelEdit.Expr

open Number Text

/-- A formula that was read and where its reader stands. -/
def answer {n : Nat} (x : Except EvalError (Read n)) : Except EvalError (Expr × Cursor) :=
  x.map fun r => (r.expr, r.next)

/-- Arguments that were read and where their reader stands. -/
def answerArgs {n : Nat} (x : Except EvalError (ReadArgs n)) :
    Except EvalError (List Expr × Cursor) :=
  x.map fun r => (r.args, r.next)

/-- The operator of a list that comes next, and the cursor past it. -/
def nextOperator (ops : List (List Char × BinaryOp)) (c : Cursor) : Option (BinaryOp × Cursor) :=
  (operator? ops c).map fun x => (x.1, x.2.1)

/-! ## Rows -/

theorem level_zero (c : Cursor) : answer (level 0 c) = answer (signed c) := by
  rw [level]

theorem level_chain {r : Nat} (h : r + 1 ≠ comparison) (c : Cursor) :
    answer (level (r + 1) c) =
      (answer (level r c) >>= fun x => answer (chain r 0 x.1 x.2.skip)) := by
  rw [level]
  cases level r c with
  | error e => rfl
  | ok x =>
    dsimp only
    rw [if_neg h]
    show _ = answer (chain r 0 x.expr x.next.skip)
    cases chain r 0 x.expr x.next.skip <;> rfl

theorem level_comparison (c : Cursor) : answer (level comparison c) =
    (answer (level 2 c) >>= fun x =>
      match nextOperator (operators comparison) x.2.skip with
      | none => .ok (x.1, x.2.skip)
      | some (op, f) => (answer (level 2 f)).map fun y => (.binary op x.1 y.1, y.2)) := by
  show answer (level (2 + 1) c) = _
  rw [level]
  cases level 2 c with
  | error e => rfl
  | ok x =>
    dsimp only
    rw [if_pos (show 2 + 1 = comparison from rfl)]
    show answer _ = (match nextOperator (operators comparison) x.next.skip with
      | none => .ok (x.expr, x.next.skip)
      | some (op, f) => (answer (level 2 f)).map fun y => (.binary op x.expr y.1, y.2) :
        Except EvalError (Expr × Cursor))
    have hnext : nextOperator (operators comparison) x.next.skip =
        (operator? (operators (2 + 1)) x.next.skip).map fun x => (x.1, x.2.1) := rfl
    rw [hnext]
    cases operator? (operators (2 + 1)) x.next.skip with
    | none => rfl
    | some y =>
      obtain ⟨op, f, hf⟩ := y
      dsimp only [Option.map_some]
      cases level 2 f <;> rfl

theorem chain_eq (r links : Nat) (lhs : Expr) (c : Cursor) : answer (chain r links lhs c) =
    match nextOperator (operators (r + 1)) c with
    | none => .ok (lhs, c.leave links)
    | some (op, d) => d.enter >>= fun f => answer (level r f) >>= fun x =>
        answer (chain r (links + 1) (.binary op lhs x.1) x.2.skip) := by
  rw [chain]
  unfold nextOperator
  cases operator? (operators (r + 1)) c with
  | none => rfl
  | some y =>
    obtain ⟨op, d, hd⟩ := y
    dsimp only [Option.map_some]
    split
    · rename_i e he
      conv => rhs; rw [he]
      rfl
    · rename_i f he
      conv => rhs; rw [he]
      show _ = answer (level r f) >>= fun x =>
        answer (chain r (links + 1) (.binary op lhs x.1) x.2.skip)
      cases level r f with
      | error e => rfl
      | ok x =>
        show _ = answer (chain r (links + 1) (.binary op lhs x.expr) x.next.skip)
        dsimp only
        cases chain r (links + 1) (.binary op lhs x.expr) x.next.skip <;> rfl

/-! ## Signs and powers -/

section

variable {c d : Cursor} {rest : List Char}

theorem signed_deep {e : EvalError} (he : c.enter = .error e) :
    answer (signed c) = .error e := by
  rw [signed]
  split
  · rename_i e' he'
    exact congrArg Except.error (Except.error.inj (he.symm.trans he')).symm
  · rename_i f hf
    cases he.symm.trans hf

theorem signed_minus (he : c.enter = .ok d) (hr : d.skip.rest = '-' :: rest) :
    answer (signed c) = (answer (signed (d.skip.advance ['-'] rest))).map fun x =>
      (.neg x.1, x.2.leave 1) := by
  rw [signed]
  split
  · rename_i e he'
    cases he.symm.trans he'
  rename_i f hf
  obtain rfl : d = f := Except.ok.inj (he.symm.trans hf)
  split
  · rename_i rest' h
    obtain rfl : rest = rest' := (List.cons.inj (hr.symm.trans h)).2
    dsimp only
    cases signed (d.skip.advance ['-'] rest) <;> rfl
  · rename_i rest' h
    exact absurd (List.cons.inj (hr.symm.trans h)).1 (by decide)
  · rename_i rest' h
    exact absurd (List.cons.inj (hr.symm.trans h)).1 (by decide)
  · rename_i h _ _
    exact absurd hr (h rest)

theorem signed_plus (he : c.enter = .ok d) (hr : d.skip.rest = '+' :: rest) :
    answer (signed c) = (answer (signed (d.skip.advance ['+'] rest))).map fun x =>
      (x.1, x.2.leave 1) := by
  rw [signed]
  split
  · rename_i e he'
    cases he.symm.trans he'
  rename_i f hf
  obtain rfl : d = f := Except.ok.inj (he.symm.trans hf)
  split
  · rename_i rest' h
    exact absurd (List.cons.inj (hr.symm.trans h)).1 (by decide)
  · rename_i rest' h
    obtain rfl : rest = rest' := (List.cons.inj (hr.symm.trans h)).2
    dsimp only
    cases signed (d.skip.advance ['+'] rest) <;> rfl
  · rename_i rest' h
    exact absurd (List.cons.inj (hr.symm.trans h)).1 (by decide)
  · rename_i h _
    exact absurd hr (h rest)

theorem signed_bang (he : c.enter = .ok d) (hr : d.skip.rest = '!' :: rest)
    (hrest : rest.head? ≠ some '=') :
    answer (signed c) = (answer (signed (d.skip.advance ['!'] rest))).map fun x =>
      (.not x.1, x.2.leave 1) := by
  rw [signed]
  split
  · rename_i e he'
    cases he.symm.trans he'
  rename_i f hf
  obtain rfl : d = f := Except.ok.inj (he.symm.trans hf)
  split
  · rename_i rest' h
    exact absurd (List.cons.inj (hr.symm.trans h)).1 (by decide)
  · rename_i rest' h
    exact absurd (List.cons.inj (hr.symm.trans h)).1 (by decide)
  · rename_i rest' h
    obtain rfl : rest = rest' := (List.cons.inj (hr.symm.trans h)).2
    dsimp only
    rw [if_neg hrest]
    cases signed (d.skip.advance ['!'] rest) <;> rfl
  · rename_i h
    exact absurd hr (h rest)

/-- An exclamation mark before an equals sign is no sign. -/
theorem signed_unequal (he : c.enter = .ok d) (hr : d.skip.rest = '!' :: rest)
    (hrest : rest.head? = some '=') :
    answer (signed c) = .error (d.skip.fault .foreignCharacter) := by
  rw [signed]
  split
  · rename_i e he'
    cases he.symm.trans he'
  rename_i f hf
  obtain rfl : d = f := Except.ok.inj (he.symm.trans hf)
  split
  · rename_i rest' h
    exact absurd (List.cons.inj (hr.symm.trans h)).1 (by decide)
  · rename_i rest' h
    exact absurd (List.cons.inj (hr.symm.trans h)).1 (by decide)
  · rename_i rest' h
    obtain rfl : rest = rest' := (List.cons.inj (hr.symm.trans h)).2
    dsimp only
    rw [if_pos hrest]
    rfl
  · rename_i h
    exact absurd hr (h rest)

/-- What starts with no sign is an atom, with a power if one follows. -/
theorem signed_power (he : c.enter = .ok d)
    (hr : ∀ a ∈ d.skip.rest.head?, a ≠ '-' ∧ a ≠ '+' ∧ a ≠ '!') :
    answer (signed c) = (answer (power d.skip)).map fun x => (x.1, x.2.leave 1) := by
  rw [signed]
  split
  · rename_i e he'
    cases he.symm.trans he'
  rename_i f hf
  obtain rfl : d = f := Except.ok.inj (he.symm.trans hf)
  split
  · rename_i rest h
    exact absurd rfl (hr '-' (by rw [h]; rfl)).1
  · rename_i rest h
    exact absurd rfl (hr '+' (by rw [h]; rfl)).2.1
  · rename_i rest h
    exact absurd rfl (hr '!' (by rw [h]; rfl)).2.2
  · dsimp only
    cases power d.skip <;> rfl

theorem power_eq (c : Cursor) : answer (power c) =
    (answer (atom c) >>= fun x =>
      match x.2.skip.eat? ['^'] with
      | none => .ok (x.1, x.2.skip)
      | some f => (answer (signed f)).map fun y => (.binary .pow x.1 y.1, y.2)) := by
  rw [power]
  cases atom c with
  | error e => rfl
  | ok x =>
    show _ = match x.next.skip.eat? ['^'] with
      | none => _
      | some _ => _
    dsimp only
    split
    · rename_i he
      conv => rhs; rw [he]
      rfl
    · rename_i f he
      conv => rhs; rw [he]
      dsimp only
      cases signed f <;> rfl

end

/-! ## Atoms -/

section

variable {c : Cursor} {a : Char} {rest : List Char}

theorem atom_opening (hr : c.rest = '(' :: rest) : answer (atom c) =
    (answer (level loosest (c.advance ['('] rest)) >>= fun x =>
      match x.2.skip.eat? [')'] with
      | none => .error (x.2.skip.fault .openParenthesis)
      | some f => .ok (x.1, f)) := by
  obtain ⟨cs, pos, depth⟩ := c
  subst hr
  rw [atom]
  dsimp only
  rw [if_pos rfl]
  cases level loosest (Cursor.advance ⟨'(' :: rest, pos, depth⟩ ['('] rest) with
  | error e => rfl
  | ok x =>
    show _ = match x.next.skip.eat? [')'] with
      | none => _
      | some _ => _
    dsimp only
    split
    · rename_i he
      conv => rhs; rw [he]
      rfl
    · rename_i f he
      conv => rhs; rw [he]
      rfl

theorem atom_number (hr : c.rest = a :: rest) (ha : isDigitOrPoint a = true) {v : Float}
    (hv : double? (numberText (a :: rest)).1 = some v) : answer (atom c) =
      .ok (.number v, c.advance (numberText (a :: rest)).1 (numberText (a :: rest)).2) := by
  have hopen : a ≠ '(' := by
    rintro rfl
    exact absurd ha (by decide)
  obtain ⟨cs, pos, depth⟩ := c
  subst hr
  rw [atom]
  dsimp only
  rw [if_neg hopen, dif_pos ha]
  split
  · rename_i hnone
    cases hv.symm.trans hnone
  · rename_i w hsome
    obtain rfl : v = w := Option.some.inj (hv.symm.trans hsome)
    rfl

theorem atom_badNumber (hr : c.rest = a :: rest) (ha : isDigitOrPoint a = true)
    (hv : double? (numberText (a :: rest)).1 = none) : answer (atom c) =
      .error (c.fault (.badNumber (String.ofList (numberText (a :: rest)).1))) := by
  have hopen : a ≠ '(' := by
    rintro rfl
    exact absurd ha (by decide)
  obtain ⟨cs, pos, depth⟩ := c
  subst hr
  rw [atom]
  dsimp only
  rw [if_neg hopen, dif_pos ha]
  split
  · rfl
  · rename_i w hsome
    cases hv.symm.trans hsome

theorem atom_end (hr : c.rest = []) : answer (atom c) = .error (c.fault .endOfText) := by
  obtain ⟨cs, pos, depth⟩ := c
  subst hr
  rw [atom]
  rfl

theorem atom_foreign (hr : c.rest = a :: rest) (hopen : a ≠ '(') (hdigit : isDigitOrPoint a = false)
    (hname : (a.isAlpha || a = '_') = false) :
    answer (atom c) = .error (c.fault .foreignCharacter) := by
  obtain ⟨cs, pos, depth⟩ := c
  subst hr
  rw [atom]
  dsimp only
  rw [if_neg hopen, dif_neg (Bool.eq_false_iff.1 hdigit), if_neg (Bool.eq_false_iff.1 hname)]
  rfl

theorem atom_name (hr : c.rest = a :: rest) (ha : (a.isAlpha || a = '_') = true) :
    answer (atom c) =
      let d := (c.advance (a :: rest.takeWhile isWord) (rest.dropWhile isWord)).skip
      let name := String.ofList (a :: rest.takeWhile isWord)
      match d.eat? ['('] with
      | none => .ok (.variable name, d)
      | some f =>
        match f.skip.eat? [')'] with
        | some k => .ok (.call name [], k)
        | none => (answerArgs (arguments f.skip)).map fun x => (.call name x.1, x.2) := by
  have hopen : a ≠ '(' := by
    rintro rfl
    exact absurd ha (by decide)
  have hdigit : ¬ isDigitOrPoint a = true := by
    rw [isDigitOrPoint_iff]
    rw [isNameStart_iff] at ha
    omega
  obtain ⟨cs, pos, depth⟩ := c
  subst hr
  rw [atom]
  dsimp only
  rw [if_neg hopen, dif_neg hdigit, if_pos ha]
  split
  · rename_i he
    conv => rhs; rw [he]
    rfl
  · rename_i f he
    conv => rhs; rw [he]
    dsimp only
    split
    · rename_i k hk
      conv => rhs; rw [hk]
      rfl
    · rename_i hk
      conv => rhs; rw [hk]
      dsimp only
      cases arguments f.skip <;> rfl

theorem arguments_eq (c : Cursor) : answerArgs (arguments c) =
    (answer (level loosest c) >>= fun x =>
      match x.2.skip.eat? [')'] with
      | some f => .ok ([x.1], f)
      | none =>
        match x.2.skip.eat? [','] with
        | none => .error (x.2.skip.fault .openArguments)
        | some f => (answerArgs (arguments f)).map fun y => (x.1 :: y.1, y.2)) := by
  rw [arguments]
  cases level loosest c with
  | error e => rfl
  | ok x =>
    show _ = match x.next.skip.eat? [')'] with
      | some _ => _
      | none => _
    dsimp only
    split
    · rename_i f he
      conv => rhs; rw [he]
      rfl
    · rename_i he
      conv => rhs; rw [he]
      dsimp only
      split
      · rename_i hcomma
        conv => rhs; rw [hcomma]
        rfl
      · rename_i f hcomma
        conv => rhs; rw [hcomma]
        dsimp only
        cases arguments f <;> rfl

end

theorem parse_eq (text : String) : parse text =
    (answer (level loosest ⟨text.toList, 0, 0⟩) >>= fun x =>
      if x.2.skip.rest.isEmpty then .ok x.1 else .error (x.2.skip.fault .trailingText)) := by
  unfold parse
  cases level loosest ⟨text.toList, 0, 0⟩ <;> rfl

end VoxelEdit.Expr
