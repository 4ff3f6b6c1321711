import VoxelEdit.Proofs.Outcomes
import VoxelEdit.Proofs.ParserSteps

/-!
# What a reader of formulas has done

If a reader succeeds, then so did the readers that it called, and the cursor moved on. There is one
lemma for each reader. It names the calls and says where their cursors stood: how deep, and with how
many characters to come.
-/

namespace VoxelEdit.Expr

open Number Text

/-! ## Cursors -/

namespace Cursor

@[simp]
theorem skip_depth (c : Cursor) : c.skip.depth = c.depth := rfl

@[simp]
theorem leave_depth (c : Cursor) (n : Nat) : (c.leave n).depth = c.depth - n := rfl

section

variable {c d : Cursor}

theorem enter_eq_ok (h : c.enter = .ok d) : c.depth + 1 ≤ maxDepth ∧ d.depth = c.depth + 1 := by
  unfold enter at h
  dsimp only at h
  split at h
  · exact nomatch h
  · rename_i hdepth
    obtain rfl := Except.ok.inj h
    exact ⟨Nat.le_of_not_lt hdepth, rfl⟩

theorem eat?_depth {token : List Char} (h : c.eat? token = some d) : d.depth = c.depth := by
  unfold eat? at h
  split at h
  · obtain rfl := Option.some.inj h
    rfl
  · exact nomatch h

/-- What is eaten behind white space, too, takes no depth. -/
theorem eat?_skip_depth {token : List Char} (h : c.skip.eat? token = some d) :
    d.depth = c.depth :=
  eat?_depth (c := c.skip) h

end

end Cursor

theorem operator?_depth {ops : List (List Char × BinaryOp)} {c : Cursor} {op : BinaryOp}
    {d : { d : Cursor // d.rest.length < c.rest.length }} (h : operator? ops c = some (op, d)) :
    d.1.depth = c.depth := by
  induction ops with
  | nil => exact nomatch h
  | cons x ops ih =>
    unfold operator? at h
    split at h
    · rename_i e he
      split at h
      · obtain ⟨-, rfl⟩ := Prod.mk.inj (Option.some.inj h)
        exact Cursor.eat?_depth he
      · exact ih h
    · exact ih h

/-- An operator takes characters, and no depth. -/
theorem nextOperator_eq_some {ops : List (List Char × BinaryOp)} {c d : Cursor} {op : BinaryOp}
    (h : nextOperator ops c = some (op, d)) :
    d.depth = c.depth ∧ d.rest.length < c.rest.length := by
  obtain ⟨⟨op', d'⟩, hop, heq⟩ := Option.map_eq_some_iff.1 h
  obtain ⟨rfl, rfl⟩ := Prod.mk.inj heq
  exact ⟨operator?_depth hop, d'.2⟩

/-! ## Answers -/

theorem answer_shorter {n : Nat} {x : Except EvalError (Read n)} {y : Expr × Cursor}
    (h : answer x = .ok y) : y.2.rest.length < n := by
  obtain ⟨r, -, rfl⟩ := exists_of_map_eq_ok h
  exact r.shorter

theorem answerArgs_shorter {n : Nat} {x : Except EvalError (ReadArgs n)} {y : List Expr × Cursor}
    (h : answerArgs x = .ok y) : y.2.rest.length < n := by
  obtain ⟨r, -, rfl⟩ := exists_of_map_eq_ok h
  exact r.shorter

section

variable {r links : Nat} {c : Cursor} {lhs : Expr} {x : Expr × Cursor}

/-- A row whose operators chain has read an operand, and then a chain. -/
theorem level_chain_ok (hrow : r + 1 ≠ comparison) (h : answer (level (r + 1) c) = .ok x) :
    ∃ y, answer (level r c) = .ok y ∧ answer (chain r 0 y.1 y.2.skip) = .ok x := by
  rw [level_chain hrow] at h
  exact bind_eq_ok h

/-- The row of comparisons has read one operand, or two. -/
theorem level_comparison_ok (h : answer (level comparison c) = .ok x) :
    ∃ y, answer (level 2 c) = .ok y ∧ (x = (y.1, y.2.skip) ∨
      ∃ op f z, f.depth = y.2.depth ∧ f.rest.length < y.2.rest.length ∧
        answer (level 2 f) = .ok z ∧ x = (.binary op y.1 z.1, z.2)) := by
  rw [level_comparison] at h
  obtain ⟨y, hy, h⟩ := bind_eq_ok h
  refine ⟨y, hy, ?_⟩
  cases hop : nextOperator (operators comparison) y.2.skip with
  | none =>
    rw [hop] at h
    exact .inl (Except.ok.inj h).symm
  | some w =>
    obtain ⟨op, f⟩ := w
    rw [hop] at h
    obtain ⟨z, hz, rfl⟩ := exists_of_map_eq_ok h
    obtain ⟨hdepth, hlength⟩ := nextOperator_eq_some hop
    have hskip := y.2.skip_length_le
    exact .inr ⟨op, f, z, hdepth, by omega, hz, rfl⟩

/-- A chain has ended, or it has entered one link and read its operand. -/
theorem chain_ok (h : answer (chain r links lhs c) = .ok x) : x = (lhs, c.leave links) ∨
    ∃ op f y, f.depth = c.depth + 1 ∧ c.depth + 1 ≤ maxDepth ∧ f.rest.length < c.rest.length ∧
      answer (level r f) = .ok y ∧
      answer (chain r (links + 1) (.binary op lhs y.1) y.2.skip) = .ok x := by
  rw [chain_eq] at h
  cases hop : nextOperator (operators (r + 1)) c with
  | none =>
    rw [hop] at h
    exact .inl (Except.ok.inj h).symm
  | some w =>
    obtain ⟨op, d⟩ := w
    rw [hop] at h
    obtain ⟨f, hf, h⟩ := bind_eq_ok h
    obtain ⟨y, hy, h⟩ := bind_eq_ok h
    obtain ⟨hdepth, hlength⟩ := nextOperator_eq_some hop
    obtain ⟨hmax, henter⟩ := Cursor.enter_eq_ok hf
    have hrest : f.rest.length = d.rest.length := congrArg List.length (Cursor.enter_rest hf)
    exact .inr ⟨op, f, y, by omega, by omega, by omega, hy, h⟩

/-- A signed formula was read one level down: another one behind a sign, or a power. -/
theorem signed_ok (h : answer (signed c) = .ok x) : ∃ d : Cursor,
    d.depth = c.depth + 1 ∧ c.depth + 1 ≤ maxDepth ∧ d.rest.length ≤ c.rest.length ∧
      ((∃ (e : Cursor) (y : Expr × Cursor), e.depth = d.depth ∧ e.rest.length < d.rest.length ∧
          answer (signed e) = .ok y ∧ x.2 = y.2.leave 1 ∧
          (x.1 = y.1 ∨ x.1 = .neg y.1 ∨ x.1 = .not y.1)) ∨
        ∃ y, answer (power d) = .ok y ∧ x = (y.1, y.2.leave 1)) := by
  obtain ⟨z, hz, rfl⟩ := exists_of_map_eq_ok h
  rw [signed] at hz
  split at hz
  · cases hz
  rename_i d hd
  obtain ⟨hmax, hdepth⟩ := Cursor.enter_eq_ok hd
  have hlength : d.skip.rest.length ≤ c.rest.length := by
    rw [← Cursor.enter_rest hd]
    exact d.skip_length_le
  refine ⟨d.skip, hdepth, hmax, hlength, ?_⟩
  -- behind each of the three signs the reader goes on in the same way
  have behind {a : Char} {rest : List Char} (hr : d.skip.rest = a :: rest) :
      (d.skip.advance [a] rest).rest.length < d.skip.rest.length := by
    rw [hr]
    exact Nat.lt_succ_self _
  split at hz
  · rename_i rest hr
    dsimp only at hz
    split at hz
    · cases hz
    · rename_i e next hs hy
      obtain rfl := Except.ok.inj hz
      exact .inl ⟨d.skip.advance ['-'] rest, (e, next), rfl, behind hr,
        by rw [hy]; rfl, rfl, .inr (.inl rfl)⟩
  · rename_i rest hr
    dsimp only at hz
    split at hz
    · cases hz
    · rename_i e next hs hy
      obtain rfl := Except.ok.inj hz
      exact .inl ⟨d.skip.advance ['+'] rest, (e, next), rfl, behind hr,
        by rw [hy]; rfl, rfl, .inl rfl⟩
  · rename_i rest hr
    dsimp only at hz
    split at hz
    · cases hz
    split at hz
    · cases hz
    · rename_i e next hs hy
      obtain rfl := Except.ok.inj hz
      exact .inl ⟨d.skip.advance ['!'] rest, (e, next), rfl, behind hr,
        by rw [hy]; rfl, rfl, .inr (.inr rfl)⟩
  · split at hz
    · cases hz
    · rename_i e next hs hy
      obtain rfl := Except.ok.inj hz
      exact .inr ⟨(e, next), by rw [hy]; rfl, rfl⟩

/-- A power is an atom, or one with an exponent. -/
theorem power_ok (h : answer (power c) = .ok x) : ∃ y, answer (atom c) = .ok y ∧
    (x = (y.1, y.2.skip) ∨ ∃ f z, f.depth = y.2.depth ∧ f.rest.length < y.2.rest.length ∧
      answer (signed f) = .ok z ∧ x = (.binary .pow y.1 z.1, z.2)) := by
  rw [power_eq] at h
  obtain ⟨y, hy, h⟩ := bind_eq_ok h
  refine ⟨y, hy, ?_⟩
  cases heat : y.2.skip.eat? ['^'] with
  | none =>
    rw [heat] at h
    exact .inl (Except.ok.inj h).symm
  | some f =>
    rw [heat] at h
    obtain ⟨z, hz, rfl⟩ := exists_of_map_eq_ok h
    have hdepth := Cursor.eat?_skip_depth heat
    have hlength := Cursor.eat?_length_le heat
    have hskip := y.2.skip_length_le
    rw [List.length_singleton] at hlength
    exact .inr ⟨f, z, hdepth, by omega, hz, rfl⟩

/-- An atom is a formula in parentheses, something without parts, or a call with arguments. -/
theorem atom_ok (h : answer (atom c) = .ok x) :
    (∃ d y, d.depth = c.depth ∧ d.rest.length < c.rest.length ∧
        answer (level loosest d) = .ok y ∧ x.1 = y.1 ∧ x.2.depth = y.2.depth ∧
        x.2.rest.length ≤ y.2.rest.length) ∨
      (x.2.depth = c.depth ∧
        ((∃ v, x.1 = .number v) ∨ (∃ name, x.1 = .variable name) ∨ ∃ name, x.1 = .call name [])) ∨
      ∃ d name y, d.depth = c.depth ∧ d.rest.length + 2 ≤ c.rest.length ∧
        answerArgs (arguments d) = .ok y ∧ x = (.call name y.1, y.2) := by
  obtain ⟨z, hz, rfl⟩ := exists_of_map_eq_ok h
  obtain ⟨cs, pos, depth⟩ := c
  cases cs with
  | nil =>
    rw [atom] at hz
    cases hz
  | cons a rest =>
    have hfront : rest.length < (a :: rest).length := Nat.lt_succ_self _
    rw [atom] at hz
    dsimp only at hz
    split at hz
    · split at hz
      · cases hz
      rename_i e next hs hy
      split at hz
      · cases hz
      rename_i f hf
      obtain rfl := Except.ok.inj hz
      have hdepth := Cursor.eat?_skip_depth hf
      have hclosing := Cursor.eat?_length_le hf
      have hskip := next.skip_length_le
      refine .inl ⟨Cursor.advance ⟨a :: rest, pos, depth⟩ ['('] rest, (e, next), rfl, hfront,
        by rw [hy]; rfl, rfl, hdepth, ?_⟩
      dsimp only
      omega
    split at hz
    · split at hz
      · cases hz
      · rename_i v _
        obtain rfl := Except.ok.inj hz
        exact .inr (.inl ⟨rfl, .inl ⟨v, rfl⟩⟩)
    split at hz
    · split at hz
      · obtain rfl := Except.ok.inj hz
        exact .inr (.inl ⟨rfl, .inr (.inl ⟨_, rfl⟩)⟩)
      rename_i f hf
      have hf' := Cursor.eat?_skip_depth hf
      split at hz
      · rename_i k hk
        obtain rfl := Except.ok.inj hz
        have hk' := Cursor.eat?_skip_depth hk
        exact .inr (.inl ⟨hk'.trans hf', .inr (.inr ⟨_, rfl⟩)⟩)
      · split at hz
        · cases hz
        · rename_i args next hs hy
          obtain rfl := Except.ok.inj hz
          refine .inr (.inr ⟨f.skip, _, (args, next), hf', ?_, by rw [hy]; rfl, rfl⟩)
          have hskip := f.skip_length_le
          have heat := Cursor.eat?_length_le hf
          have hname := Cursor.skip_length_le
            (Cursor.advance ⟨a :: rest, pos, depth⟩ (a :: rest.takeWhile isWord)
              (rest.dropWhile isWord))
          have hword := (List.dropWhile_sublist isWord (l := rest)).length_le
          simp only [Cursor.advance] at hname heat
          simp only [List.length_cons, List.length_nil] at heat ⊢
          omega
    · cases hz

/-- Arguments are a formula, or one with arguments behind it. -/
theorem arguments_ok {xs : List Expr × Cursor} (h : answerArgs (arguments c) = .ok xs) :
    ∃ y, answer (level loosest c) = .ok y ∧
      ((xs.1 = [y.1] ∧ xs.2.depth = y.2.depth ∧ xs.2.rest.length ≤ y.2.rest.length) ∨
        ∃ d ys, d.depth = y.2.depth ∧ d.rest.length < y.2.rest.length ∧
          answerArgs (arguments d) = .ok ys ∧ xs = (y.1 :: ys.1, ys.2)) := by
  rw [arguments_eq] at h
  obtain ⟨y, hy, h⟩ := bind_eq_ok h
  refine ⟨y, hy, ?_⟩
  cases hclose : y.2.skip.eat? [')'] with
  | some f =>
    rw [hclose] at h
    obtain rfl := (Except.ok.inj h).symm
    have hdepth := Cursor.eat?_skip_depth hclose
    have hlength := Cursor.eat?_length_le hclose
    have hskip := y.2.skip_length_le
    exact .inl ⟨rfl, hdepth, by dsimp only; omega⟩
  | none =>
    rw [hclose] at h
    cases hcomma : y.2.skip.eat? [','] with
    | none =>
      rw [hcomma] at h
      exact nomatch h
    | some f =>
      rw [hcomma] at h
      obtain ⟨ys, hys, rfl⟩ := exists_of_map_eq_ok h
      have hskip := y.2.skip_length_le
      have hlength := Cursor.eat?_length_le hcomma
      have hdepth := Cursor.eat?_skip_depth hcomma
      rw [List.length_singleton] at hlength
      exact .inr ⟨f, ys, hdepth, by omega, hys, rfl⟩

/-- A text that is read is one formula of the loosest row. -/
theorem parse_ok {text : String} {e : Expr} (h : parse text = .ok e) :
    ∃ y, answer (level loosest ⟨text.toList, 0, 0⟩) = .ok y ∧ y.1 = e := by
  rw [parse_eq] at h
  obtain ⟨y, hy, h⟩ := bind_eq_ok h
  refine ⟨y, hy, ?_⟩
  split at h
  · exact Except.ok.inj h
  · exact nomatch h

end

end VoxelEdit.Expr
