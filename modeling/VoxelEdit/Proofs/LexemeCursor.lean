import VoxelEdit.Proofs.FormulaGrammar
import VoxelEdit.Proofs.ParserSteps

/-!
# Cursors before lexemes

* `Cursor.At`: the lexemes to come at a cursor, and its depth. Behind white space stands the next
  lexeme (`Cursor.At.front`), which can be taken (`Cursor.At.eat`).
* `Stops`: what may follow a formula. `nextOperator_stops`, `nextOperator_operator`: **a row of
  operators finds none there, and otherwise the one that is written**, also where an operator is the
  front of another one.
-/

namespace VoxelEdit.Expr

open Number Text

/-! ## Lexemes to come -/

/-- The lexemes to come at a cursor, and its depth. -/
structure Cursor.At (ts : List Lexeme) (d : Nat) (c : Cursor) : Prop where
  spaced : Spaced isSpace (ts.map Lexeme.text) c.rest
  depth : c.depth = d

/-- What comes next may follow a formula whose operators are of rank `k` or tighter. -/
def Stops (k : Nat) (ts : List Lexeme) : Prop := ∀ t ∈ ts.head?, t.Follows k

namespace Stops

variable {k l : Nat} {ts : List Lexeme}

theorem mono (h : Stops l ts) (hkl : k ≤ l) : Stops k ts := by
  intro t ht
  have hfollows := h t ht
  cases t with
  | operator op => exact Nat.lt_of_le_of_lt hkl hfollows
  | number | name | minus | bang | opening | closing | comma => exact hfollows

theorem operator {op : BinaryOp} (h : k < op.rank) : Stops k (.operator op :: ts) := by
  rintro t ⟨⟩
  exact h

theorem closing : Stops k (.closing :: ts) := by
  rintro t ⟨⟩
  trivial

theorem comma : Stops k (.comma :: ts) := by
  rintro t ⟨⟩
  trivial

/-- What a stop starts with. -/
theorem first (h : Stops k ts) {a : Char} (ha : firstChar ts = some a) :
    a = ')' ∨ a = ',' ∨ ∃ op : BinaryOp, k < op.rank ∧ op.token.head? = some a := by
  cases ts with
  | nil => exact nomatch ha
  | cons t ts =>
    have hfollows := h t rfl
    cases t with
    | operator op => exact .inr (.inr ⟨op, hfollows, ha⟩)
    | closing => exact .inl (Option.some.inj ha).symm
    | comma => exact .inr (.inl (Option.some.inj ha).symm)
    | number | name | minus | bang | opening => exact hfollows.elim

/-- A stop starts with no word and no opening parenthesis. -/
theorem head (h : Stops 0 ts) {a : Char} (ha : firstChar ts = some a) :
    isWord a = false ∧ a ≠ '.' ∧ a ≠ '(' := by
  rcases h.first ha with rfl | rfl | ⟨op, -, hop⟩
  · decide
  · decide
  · cases op <;> exact Option.some.inj hop ▸ by decide

/-- No power comes where a row of operators stops. -/
theorem no_power (h : Stops 1 ts) : firstChar ts ≠ some '^' := by
  intro ha
  rcases h.first ha with h | h | ⟨op, hop, h⟩
  · exact absurd h (by decide)
  · exact absurd h (by decide)
  · cases op <;> first | exact absurd hop (by decide) | exact absurd h (by decide)

end Stops

namespace Cursor.At

variable {ts : List Lexeme} {t : Lexeme} {d : Nat} {c : Cursor}

theorem head_text (ts : List Lexeme) :
    ∀ p ∈ (ts.map Lexeme.text).head?, ∃ a q, p = a :: q ∧ isSpace a = false := by
  intro p hp
  cases ts with
  | nil => exact nomatch hp
  | cons t ts => exact Option.some.inj hp ▸ t.exists_text

theorem skip (h : At ts d c) : At ts d c.skip :=
  ⟨h.spaced.dropBlanks (head_text ts), h.depth⟩

/-- Back up where the reader came from. -/
theorem leave {n : Nat} (h : At ts (d + n) c) : At ts d (c.leave n) := by
  have hdepth := h.depth
  refine ⟨h.spaced, ?_⟩
  show c.depth - n = d
  omega

/-- The next lexeme stands behind the white space. -/
theorem front (h : At (t :: ts) d c) :
    ∃ rest, c.skip.rest = t.text ++ rest ∧ At ts d (c.skip.advance t.text rest) := by
  obtain ⟨a, cs, ht, ha⟩ := t.exists_text
  have hspaced := h.spaced
  rw [List.map_cons, ht] at hspaced
  obtain ⟨rest, hrest, hts⟩ := hspaced.dropWhile ha
  exact ⟨rest, ht ▸ hrest, hts, h.depth⟩

/-- The character behind the white space is the first one of the lexemes. -/
theorem skip_head (h : At ts d c) : c.skip.rest.head? = firstChar ts := by
  cases ts with
  | nil =>
    have hnil : c.skip.rest = [] := h.spaced.dropWhile_nil
    rw [hnil]
    rfl
  | cons t ts =>
    obtain ⟨a, cs, ht, -⟩ := t.exists_text
    obtain ⟨rest, hrest, -⟩ := h.front
    rw [hrest, ht]
    show some a = t.text.head?
    rw [ht]
    rfl

/-- The next character is white space or the first one of the lexemes. -/
theorem head_cases (h : At ts d c) {a : Char} (ha : c.rest.head? = some a) :
    isSpace a = true ∨ firstChar ts = some a := by
  have hps : ∀ p ∈ (ts.map Lexeme.text).head?, p ≠ [] := by
    intro p hp
    obtain ⟨b, q, rfl, -⟩ := head_text ts p hp
    exact List.cons_ne_nil b q
  refine (h.spaced.head?_cases hps ha).imp_right ?_
  rintro ⟨p, hp, hpa⟩
  cases ts with
  | nil => exact nomatch hp
  | cons t ts =>
    rw [← Option.some.inj hp] at hpa
    exact hpa

/-- What starts with no word and no point ends a run of word characters and points. -/
theorem run_ends (h : At ts d c)
    (hts : ∀ a, firstChar ts = some a → isWord a = false ∧ a ≠ '.') :
    ∀ a ∈ c.rest.head?, isWord a = false ∧ a ≠ '.' := by
  intro a ha
  rcases h.head_cases ha with hspace | hfirst
  · rw [isSpace_iff] at hspace
    rw [← Bool.not_eq_true, isWord_iff, ne_eq, char_eq_iff]
    simp only [Char.reduceToNat]
    omega
  · exact hts a hfirst

/-- A text that comes next is taken. -/
theorem eat (h : At (t :: ts) d c) : ∃ f, At ts d f ∧ c.skip.eat? t.text = some f := by
  obtain ⟨rest, hrest, hts⟩ := h.front
  refine ⟨_, hts, ?_⟩
  unfold Cursor.eat?
  rw [hrest, if_pos (List.isPrefixOf_iff_prefix.2 (List.prefix_append _ _)), List.drop_left]

end Cursor.At

/-- A text that starts otherwise is not taken. -/
theorem eat?_none {c : Cursor} {a : Char} {token : List Char} (h : c.rest.head? ≠ some a) :
    c.eat? (a :: token) = none := by
  unfold Cursor.eat?
  cases hr : c.rest with
  | nil => rfl
  | cons b rest =>
    rw [hr] at h
    refine if_neg fun hp => h ?_
    have hab : (a == b) = true := (Bool.and_eq_true_iff.1 hp).1
    exact congrArg some (beq_iff_eq.1 hab).symm

/-! ## Operators -/

section

variable {c : Cursor} {token : List Char} {op : BinaryOp} {ops : List (List Char × BinaryOp)}

theorem nextOperator_of_none (h : c.eat? token = none) :
    nextOperator ((token, op) :: ops) c = nextOperator ops c := by
  have hstep : operator? ((token, op) :: ops) c = operator? ops c := by
    rw [operator?]
    split
    · rename_i d hd
      exact nomatch h.symm.trans hd
    · rfl
  unfold nextOperator
  rw [hstep]

theorem nextOperator_of_some {d : Cursor} (h : c.eat? token = some d) (ht : token ≠ []) :
    nextOperator ((token, op) :: ops) c = some (op, d) := by
  have hlength := Cursor.eat?_length_le h
  have hpos := List.length_pos_iff.2 ht
  have hshorter : d.rest.length < c.rest.length := by omega
  have hstep : operator? ((token, op) :: ops) c = some (op, ⟨d, hshorter⟩) := by
    rw [operator?]
    split
    · rename_i d' hd
      obtain rfl : d = d' := Option.some.inj (h.symm.trans hd)
      rw [dif_pos hshorter]
    · rename_i hnone
      exact nomatch h.symm.trans hnone
  unfold nextOperator
  rw [hstep]
  rfl

end

/-- The operators of a row are of the rank above it, and start with a character of their own. -/
theorem mem_operators {r : Nat} {x : List Char × BinaryOp} (hx : x ∈ operators r) :
    x.2.rank = r + 1 ∧ x.1 = x.2.token := by
  unfold operators at hx
  split at hx
  all_goals
    simp only [List.mem_cons, List.not_mem_nil, or_false] at hx
  · rcases hx with rfl | rfl | rfl <;> exact ⟨rfl, rfl⟩
  · rcases hx with rfl | rfl <;> exact ⟨rfl, rfl⟩
  · rcases hx with rfl | rfl | rfl | rfl | rfl | rfl <;> exact ⟨rfl, rfl⟩
  · exact hx ▸ ⟨rfl, rfl⟩
  · exact hx ▸ ⟨rfl, rfl⟩

/-- Operators that start alike are of one rank. -/
theorem rank_eq_of_head {op op' : BinaryOp} (h : op.token.head? = op'.token.head?) :
    op.rank = op'.rank := by
  cases op <;> cases op' <;> first | rfl | exact absurd h (by decide)

theorem head_token (op : BinaryOp) : ∃ a cs, op.token = a :: cs ∧ a ≠ ')' ∧ a ≠ ',' := by
  cases op <;> exact ⟨_, _, rfl, by decide, by decide⟩

/-- Before an operator of a row stand such that start otherwise, and what it is the front of. -/
theorem operators_split (op : BinaryOp) (hop : op ≠ .pow) : ∃ before after,
    operators (op.rank - 1) = before ++ (op.token, op) :: after ∧
      ∀ x ∈ before, x.1.head? ≠ op.token.head? ∨ x.1 = op.token ++ ['='] := by
  refine ⟨(operators (op.rank - 1)).takeWhile fun x => x.2 ≠ op,
    ((operators (op.rank - 1)).dropWhile fun x => x.2 ≠ op).tail, ?_⟩
  cases op <;> first | decide | exact absurd rfl hop

section

variable {c : Cursor} {ops : List (List Char × BinaryOp)}

/-- Operators that are not there are passed over. -/
theorem nextOperator_append {before : List (List Char × BinaryOp)}
    (h : ∀ x ∈ before, c.eat? x.1 = none) :
    nextOperator (before ++ ops) c = nextOperator ops c := by
  induction before with
  | nil => rfl
  | cons x before ih =>
    rw [List.cons_append, nextOperator_of_none (h x List.mem_cons_self)]
    exact ih fun y hy => h y (List.mem_cons_of_mem x hy)

end

variable {d : Nat} {ts : List Lexeme} {c : Cursor}

/-- **A row finds no operator where a formula stops.** -/
theorem nextOperator_stops {r : Nat} (h : c.At ts d) (hts : Stops (r + 1) ts) :
    nextOperator (operators r) c.skip = none := by
  have hnone : ∀ x ∈ operators r, c.skip.eat? x.1 = none := by
    intro x hx
    obtain ⟨hrank, htoken⟩ := mem_operators hx
    obtain ⟨a, cs, ha, hclosing, hcomma⟩ := head_token x.2
    rw [htoken, ha]
    refine eat?_none fun hfirst => ?_
    rw [h.skip_head] at hfirst
    rcases hts.first hfirst with rfl | rfl | ⟨op, hop, hhead⟩
    · exact hclosing rfl
    · exact hcomma rfl
    · have hsame : op.rank = x.2.rank := rank_eq_of_head (by rw [hhead, ha]; rfl)
      omega
  have hall : nextOperator (operators r ++ []) c.skip = nextOperator [] c.skip :=
    nextOperator_append hnone
  rw [List.append_nil] at hall
  exact hall

/-- **A row finds its operator**, unless an equals sign stands right behind it. -/
theorem nextOperator_operator {op : BinaryOp} (h : c.At (.operator op :: ts) d) (hop : op ≠ .pow)
    (hts : firstChar ts ≠ some '=') :
    ∃ f, f.At ts d ∧ nextOperator (operators (op.rank - 1)) c.skip = some (op, f) := by
  obtain ⟨rest, hrest, hbehind⟩ := h.front
  obtain ⟨f, hf, heat⟩ := h.eat
  obtain ⟨before, after, hrow, hbefore⟩ := operators_split op hop
  obtain ⟨a, cs, ha, -, -⟩ := head_token op
  have hnoEquals : rest.head? ≠ some '=' := by
    intro hhead
    rcases hbehind.head_cases hhead with hspace | hfirst
    · exact absurd hspace (by decide)
    · exact hts hfirst
  -- an operator before it in the row starts otherwise, or is the same with an equals sign behind
  have hnone : ∀ x ∈ before, c.skip.eat? x.1 = none := by
    intro x hx
    have hmem : x ∈ operators (op.rank - 1) := hrow ▸ List.mem_append_left _ hx
    rcases hbefore x hx with hhead | hequals
    · obtain ⟨b, bs, hb, -, -⟩ := head_token x.2
      rw [(mem_operators hmem).2] at hhead ⊢
      rw [hb] at hhead ⊢
      exact eat?_none fun hfirst => hhead (by rw [h.skip_head] at hfirst; exact hfirst.symm)
    · rw [hequals]
      refine if_neg fun hp => hnoEquals ?_
      have hprefix := List.isPrefixOf_iff_prefix.1 hp
      rw [hrest] at hprefix
      obtain ⟨tail, htail⟩ := (List.prefix_append_right_inj _).1 hprefix
      rw [← htail]
      rfl
  refine ⟨f, hf, ?_⟩
  rw [hrow, nextOperator_append hnone]
  exact nextOperator_of_some heat (by rw [ha]; exact List.cons_ne_nil a cs)

end VoxelEdit.Expr
