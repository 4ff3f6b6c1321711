import VoxelEdit.Proofs.LexemeCursor

/-!
# Written formulas are read back

* `Reaches`: a reader arrives at a state and goes on from there if there is room in depth, and fails
  for depth if not. Readers that run one after the other need room for each (`Reaches.trans`).
* `Reads`: a formula is read wherever it may stand: by each row (`ReadsLevel`), as the first
  operands of a chain that goes on (`ReadsSpine`), and as an atom (`ReadsAtom`). `reads`: **every
  formula is read wherever it may stand**, by induction over the tree.
* `parse_written`: **a written formula is read back, or there is no room for its depth.** There is
  room for every formula of height 15.
-/

namespace VoxelEdit.Expr

open Number Text

/-! ## Room in depth -/

/-- If there is room, a reader comes to a state and goes on with `y` from there; if not, it fails
for depth. -/
structure Reaches {α β : Type} (x : Except EvalError β) (room : Prop) (P : α → Prop)
    (y : α → Except EvalError β) : Prop where
  arrives : room → ∃ a, P a ∧ x = y a
  fails : ¬ room → ∃ pos, x = .error (.malformed pos .tooDeep)

namespace Reaches

variable {α β γ : Type} {x : Except EvalError β} {p q : Prop} {P : α → Prop} {Q : γ → Prop}
  {y : α → Except EvalError β} {z : γ → Except EvalError β}

theorem trans (hx : Reaches x p P y) (hy : ∀ a, P a → Reaches (y a) q Q z) :
    Reaches x (p ∧ q) Q z where
  arrives := by
    rintro ⟨hp, hq⟩
    obtain ⟨a, ha, rfl⟩ := hx.arrives hp
    exact (hy a ha).arrives hq
  fails hpq := by
    by_cases hp : p
    · obtain ⟨a, ha, rfl⟩ := hx.arrives hp
      exact (hy a ha).fails fun hq => hpq ⟨hp, hq⟩
    · exact hx.fails hp

/-- What is done with an answer. -/
theorem bind {x : Except EvalError α} (hx : Reaches x p P .ok) (f : α → Except EvalError β) :
    Reaches (x >>= f) p P f where
  arrives hp := by
    obtain ⟨a, ha, rfl⟩ := hx.arrives hp
    exact ⟨a, ha, rfl⟩
  fails hp := by
    obtain ⟨pos, rfl⟩ := hx.fails hp
    exact ⟨pos, rfl⟩

theorem map {x : Except EvalError α} (hx : Reaches x p P .ok) {f : α → γ}
    (hf : ∀ a, P a → Q (f a)) : Reaches (x.map f) p Q .ok where
  arrives hp := by
    obtain ⟨a, ha, rfl⟩ := hx.arrives hp
    exact ⟨f a, hf a ha, rfl⟩
  fails hp := by
    obtain ⟨pos, rfl⟩ := hx.fails hp
    exact ⟨pos, rfl⟩

/-- The room that is asked for, in other words. -/
theorem room (hx : Reaches x p P y) (h : q ↔ p) : Reaches x q P y where
  arrives hq := hx.arrives (h.1 hq)
  fails hq := hx.fails fun hp => hq (h.2 hp)

/-- The state, in other words. -/
theorem state (hx : Reaches x p P y) (h : ∀ a, P a → ∃ b, Q b ∧ y a = z b) : Reaches x p Q z where
  arrives hp := by
    obtain ⟨a, ha, rfl⟩ := hx.arrives hp
    exact h a ha
  fails := hx.fails

end Reaches

variable {d : Nat} {ts : List Lexeme} {c : Cursor}

/-! ## One level down -/

/-- Going one level down. -/
theorem reaches_enter (h : c.At ts d) :
    Reaches c.enter (d + 1 ≤ maxDepth) (fun e => e.At ts (d + 1)) .ok where
  arrives hroom := by
    have hdepth : ¬ maxDepth < c.depth + 1 := by
      rw [h.depth]
      omega
    exact ⟨{ c with depth := c.depth + 1 }, ⟨h.spaced, congrArg (· + 1) h.depth⟩, if_neg hdepth⟩
  fails hroom := by
    have hdepth : maxDepth < c.depth + 1 := by
      rw [h.depth]
      omega
    exact ⟨c.pos, if_pos hdepth⟩

/-- A signed formula is read, if what there is one level down is. -/
theorem reaches_signed {n : Nat} {Q : Expr × Cursor → Prop} (h : c.At ts d)
    (hdown : ∀ e : Cursor, e.At ts (d + 1) → c.enter = .ok e → d + 1 ≤ maxDepth →
      Reaches (answer (signed c)) (d + 1 + n ≤ maxDepth) Q .ok) :
    Reaches (answer (signed c)) (d + (n + 1) ≤ maxDepth) Q .ok where
  arrives hroom := by
    obtain ⟨e, he, henter⟩ := (reaches_enter h).arrives (by omega)
    exact (hdown e he henter (by omega)).arrives (by omega)
  fails hroom := by
    by_cases hfirst : d + 1 ≤ maxDepth
    · obtain ⟨e, he, henter⟩ := (reaches_enter h).arrives hfirst
      exact (hdown e he henter hfirst).fails (by omega)
    · obtain ⟨pos, henter⟩ := (reaches_enter h).fails hfirst
      exact ⟨pos, signed_deep henter⟩

/-! ## What it means that a formula is read -/

/-- A formula is read by a row, where what comes next stops it. -/
def ReadsLevel (r : Nat) (f : Formula) : Prop :=
  ∀ ts d (c : Cursor), Stops (r + 1) ts → c.At (f.lexemes (r + 1) ++ ts) d →
    Reaches (answer (level r c)) (d + f.needIn (r + 1) ≤ maxDepth)
      (fun x => x.1 = f.expr ∧ x.2.At ts d) .ok

/-- A formula is read as an atom, one level down. -/
def ReadsAtom (f : Formula) : Prop :=
  ∀ ts d (c : Cursor), d ≤ maxDepth → Stops 0 ts → c.At (f.lexemes 0 ++ ts) d →
    Reaches (answer (atom c.skip)) (d + f.need ≤ maxDepth)
      (fun x => x.1 = f.expr ∧ x.2.At ts d) .ok

/-- A formula is read as the first operands of a chain: the row above `r` goes on behind it, with
its links counted. -/
def ReadsSpine (r : Nat) (f : Formula) : Prop :=
  ∀ ts d (c : Cursor), Stops (r + 1) ts → c.At (f.lexemes (r + 2) ++ ts) d →
    Reaches (answer (level (r + 1) c)) (d + f.needIn (r + 2) ≤ maxDepth)
      (fun e : Cursor => e.At ts (d + f.links (r + 2)))
      fun e => answer (chain r (f.links (r + 2)) f.expr e.skip)

/-- A formula is read wherever it may stand. -/
structure Reads (f : Formula) : Prop where
  level : ∀ r, r ≤ loosest → ReadsLevel r f
  spine : ∀ r, r + 1 ≤ loosest → r + 1 ≠ comparison → ReadsSpine r f
  atom : ReadsAtom f

section

variable {r : Nat} {f : Formula}

/-- **A single operand is read as the start of a chain.** -/
theorem ReadsLevel.spine (h : ReadsLevel r f) (hrow : r + 1 ≠ comparison) (hf : f.rank ≠ r + 2) :
    ReadsSpine r f := by
  intro ts d c hts hc
  rw [Formula.lexemes_succ hf] at hc
  rw [level_chain hrow, Formula.needIn_succ hf, Formula.links_of_ne hf]
  refine ((h ts d c hts hc).bind _).state ?_
  rintro ⟨e, c'⟩ ⟨rfl, hc'⟩
  exact ⟨c', hc', rfl⟩

/-- **A chain is read** where its operators stop. -/
theorem ReadsSpine.level (h : ReadsSpine r f) : ReadsLevel (r + 1) f := by
  intro ts d c hts hc
  refine (h ts d c (hts.mono (Nat.le_succ _)) hc).state fun e he => ?_
  rw [chain_eq, nextOperator_stops he hts]
  have hleave : (e.skip.leave (f.links (r + 2))).At ts d := he.skip.leave
  exact ⟨_, ⟨rfl, hleave⟩, rfl⟩

/-- What is no comparison is read by the row of comparisons as by the one below it. -/
theorem ReadsLevel.comparison (h : ReadsLevel 2 f) (hf : f.rank ≠ 4) : ReadsLevel 3 f := by
  intro ts d c hts hc
  rw [Formula.lexemes_succ hf] at hc
  rw [Formula.needIn_succ hf]
  show Reaches (answer (Expr.level Expr.comparison c)) _ _ _
  rw [level_comparison]
  refine ((h ts d c (hts.mono (by decide)) hc).bind _).state ?_
  rintro ⟨e, c'⟩ ⟨rfl, hc'⟩
  refine ⟨(f.expr, c'.skip), ⟨rfl, hc'.skip⟩, ?_⟩
  have hnone : nextOperator (operators Expr.comparison) c'.skip = none := nextOperator_stops hc' hts
  dsimp only
  rw [hnone]

/-- **A row reads what the row below it reads**, except for its own operators. -/
theorem ReadsLevel.succ (h : ReadsLevel r f) (hf : f.rank ≠ r + 2) : ReadsLevel (r + 1) f := by
  by_cases hrow : r + 1 = Expr.comparison
  · obtain rfl : r = 2 := Nat.succ.inj hrow
    exact h.comparison hf
  · exact (h.spine hrow hf).level

end

/-! ## Signs and powers -/

section

variable {f a b : Formula}

/-- What stands where an atom must stand starts with no sign. -/
theorem Cursor.At.no_sign (h : c.At (f.lexemes 0 ++ ts) d) :
    ∀ x ∈ c.skip.rest.head?, x ≠ '-' ∧ x ≠ '+' ∧ x ≠ '!' := by
  intro x hx
  obtain ⟨t, us, hlexemes, ht⟩ := f.lexemes_startsAtom
  have hfirst : firstChar (f.lexemes 0 ++ ts) = some x := h.skip_head.symm.trans hx
  rw [hlexemes] at hfirst
  have hhead := ht.head hfirst
  simp only [List.mem_cons, List.not_mem_nil, or_false, not_or] at hhead
  exact ⟨hhead.1, hhead.2.1, hhead.2.2.1⟩

/-- **What starts with no sign is read as an atom** where no power follows. -/
theorem ReadsAtom.level (h : ReadsAtom f) (hf : f.rank ≠ 1) : ReadsLevel 0 f := by
  intro ts d c hts hc
  rw [Formula.lexemes_succ hf] at hc
  rw [level_zero, Formula.needIn_one hf]
  refine reaches_signed hc fun e he henter hroom => ?_
  rw [signed_power henter he.no_sign, power_eq]
  have hatom := h ts (d + 1) e hroom (hts.mono (Nat.zero_le _)) he
  refine Reaches.map (P := fun x => x.1 = f.expr ∧ x.2.At ts (d + 1)) ?_
    fun x hx => ⟨hx.1, hx.2.leave⟩
  refine (hatom.bind _).state ?_
  rintro ⟨e', c'⟩ ⟨rfl, hc'⟩
  have hnone : c'.skip.eat? ['^'] = none := eat?_none (hc'.skip_head ▸ hts.no_power)
  refine ⟨(f.expr, c'.skip), ⟨rfl, hc'.skip⟩, ?_⟩
  dsimp only
  rw [hnone]

theorem ReadsLevel.neg (h : ReadsLevel 0 f) : ReadsLevel 0 (.neg f) := by
  intro ts d c hts hc
  rw [Formula.lexemes_neg, List.cons_append] at hc
  rw [level_zero, Formula.needIn_neg]
  refine reaches_signed hc fun e he henter hroom => ?_
  obtain ⟨rest, hrest, hnext⟩ := he.front
  rw [signed_minus henter hrest, ← level_zero]
  exact (h ts (d + 1) _ hts hnext).map fun x hx => ⟨congrArg Expr.neg hx.1, hx.2.leave⟩

theorem ReadsLevel.not (h : ReadsLevel 0 f) : ReadsLevel 0 (.not f) := by
  intro ts d c hts hc
  rw [Formula.lexemes_not, List.cons_append] at hc
  rw [level_zero, Formula.needIn_not]
  refine reaches_signed hc fun e he henter hroom => ?_
  obtain ⟨rest, hrest, hnext⟩ := he.front
  have hnoEquals : rest.head? ≠ some '=' := by
    intro hhead
    rcases hnext.head_cases hhead with hspace | hfirst
    · exact absurd hspace (by decide)
    · exact Formula.firstChar_lexemes hfirst (by decide)
  rw [signed_bang henter hrest hnoEquals, ← level_zero]
  exact (h ts (d + 1) _ hts hnext).map fun x hx => ⟨congrArg Expr.not hx.1, hx.2.leave⟩

/-- A power takes an atom on its left and a signed formula on its right. -/
theorem ReadsLevel.pow (ha : ReadsAtom a) (hb : ReadsLevel 0 b) :
    ReadsLevel 0 (.binary .pow a b) := by
  intro ts d c hts hc
  have hlexemes : (Formula.binary .pow a b).lexemes 1 =
      a.lexemes 0 ++ .operator .pow :: b.lexemes 1 := Formula.lexemes_binary .pow a b
  rw [hlexemes, List.append_assoc] at hc
  rw [level_zero, Formula.needIn_power]
  refine reaches_signed hc fun e he henter hroom => ?_
  rw [signed_power henter he.no_sign, power_eq]
  have hbase := ha _ (d + 1) e hroom (Stops.operator (by decide)) he
  refine Reaches.map (P := fun x => x.1 = .binary .pow a.expr b.expr ∧ x.2.At ts (d + 1)) ?_
    fun x hx => ⟨hx.1, hx.2.leave⟩
  refine ((hbase.bind _).trans (q := d + 1 + b.needIn 1 ≤ maxDepth) ?_).room (by omega)
  rintro ⟨e', c'⟩ ⟨rfl, hc'⟩
  obtain ⟨g, hg, heat⟩ := hc'.eat
  have hcaret : c'.skip.eat? ['^'] = some g := heat
  dsimp only
  rw [hcaret]
  dsimp only
  rw [← level_zero]
  exact (hb ts (d + 1) g hts hg).map fun x hx => ⟨congrArg (Expr.binary .pow a.expr) hx.1, hx.2⟩

end

/-! ## Comparisons and chains -/

section

variable {r : Nat} {op : BinaryOp} {a b : Formula}

/-- A comparison takes a sum on either side. -/
theorem ReadsLevel.compare (hop : op.rank = 4) (ha : ReadsLevel 2 a) (hb : ReadsLevel 2 b) :
    ReadsLevel 3 (.binary op a b) := by
  intro ts d c hts hc
  have hlexemes : (Formula.binary op a b).lexemes 4 = a.lexemes 3 ++ .operator op :: b.lexemes 3 := by
    have h := Formula.lexemes_binary op a b
    rwa [BinaryOp.left, BinaryOp.right, hop] at h
  have hneed : (Formula.binary op a b).needIn 4 = max (a.needIn 3) (b.needIn 3) :=
    hop ▸ Formula.needIn_comparison hop
  rw [hlexemes, List.append_assoc] at hc
  rw [hneed]
  show Reaches (answer (Expr.level Expr.comparison c)) _ _ _
  rw [level_comparison]
  have hleft : Reaches (answer (Expr.level 2 c)) (d + a.needIn 3 ≤ maxDepth) _ .ok :=
    ha _ d c (Stops.operator (by omega)) hc
  refine ((hleft.bind _).trans (q := d + b.needIn 3 ≤ maxDepth) ?_).room (by omega)
  rintro ⟨e, c'⟩ ⟨rfl, hc'⟩
  have hnoEquals : firstChar (b.lexemes 3 ++ ts) ≠ some '=' := fun h =>
    Formula.firstChar_lexemes h (by decide)
  obtain ⟨g, hg, hnext⟩ := nextOperator_operator hc' (by rintro rfl; exact nomatch hop) hnoEquals
  have hrow : nextOperator (operators Expr.comparison) c'.skip = some (op, g) := by
    rw [hop] at hnext
    exact hnext
  dsimp only
  rw [hrow]
  exact (hb ts d g (hts.mono (by decide)) hg).map fun x hx =>
    ⟨congrArg (Expr.binary op a.expr) hx.1, hx.2⟩

/-- **One more link of a chain.** -/
theorem ReadsSpine.link (hop : op.rank = r + 2) (hrow : r + 1 ≠ comparison) (hr : r + 1 ≤ loosest)
    (ha : ReadsSpine r a) (hb : ReadsLevel r b) : ReadsSpine r (.binary op a b) := by
  intro ts d c hts hc
  have hchains : BinaryOp.Chains (r + 2) := by
    unfold BinaryOp.Chains
    unfold comparison at hrow
    unfold loosest at hr
    omega
  have hlexemes : (Formula.binary op a b).lexemes (r + 2) =
      a.lexemes (r + 2) ++ .operator op :: b.lexemes (r + 1) := by
    have h := Formula.lexemes_binary op a b
    rwa [BinaryOp.left, BinaryOp.right, hop, if_pos hchains, if_neg (by omega)] at h
  have hneed : (Formula.binary op a b).needIn (r + 2) =
      max (a.needIn (r + 2)) (a.links (r + 2) + 1 + b.needIn (r + 1)) := by
    have h := Formula.needIn_chain (a := a) (b := b) (hop ▸ hchains)
    rwa [hop] at h
  have hlinks : (Formula.binary op a b).links (r + 2) = a.links (r + 2) + 1 := if_pos hop
  rw [hlexemes, List.append_assoc] at hc
  rw [hneed, hlinks]
  have hleft := ha _ d c (Stops.operator (by omega)) hc
  refine (hleft.trans (q := d + a.links (r + 2) + 1 + b.needIn (r + 1) ≤ maxDepth) ?_).room
    (by omega)
  intro e he
  have hnoEquals : firstChar (b.lexemes (r + 1) ++ ts) ≠ some '=' := fun h =>
    Formula.firstChar_lexemes h (by decide)
  obtain ⟨g, hg, hnext⟩ := nextOperator_operator he (by rintro rfl; exact nomatch hop) hnoEquals
  have hrow : nextOperator (operators (r + 1)) e.skip = some (op, g) := by
    rw [hop] at hnext
    exact hnext
  rw [chain_eq, hrow]
  dsimp only
  -- the links so far are counted in the depth, so the right operand starts lower by as much
  refine (((reaches_enter hg).bind _).trans
    (q := d + a.links (r + 2) + 1 + b.needIn (r + 1) ≤ maxDepth) ?_).room (by omega)
  intro k hk
  refine ((hb ts _ k (hts.mono (by omega)) hk).bind _).state ?_
  rintro ⟨e', c'⟩ ⟨rfl, hc'⟩
  exact ⟨c', hc', rfl⟩

end

/-! ## Atoms -/

section

variable {f : Formula} {fs : List Formula}

/-- What may stand anywhere may stand in parentheses. -/
theorem ReadsLevel.parenthesised (h : ReadsLevel loosest f) (hf : 1 ≤ f.rank) : ReadsAtom f := by
  intro ts d c hroom hts hc
  rw [Formula.lexemes_of_lt hf, List.append_assoc] at hc
  obtain ⟨rest, hrest, hinner⟩ := hc.front
  have hlexemes : f.lexemes 6 = f.bare := Formula.lexemes_of_le f.rank_le
  have hneed : f.needIn 6 = f.need := Formula.needIn_of_le hf f.rank_le
  rw [atom_opening hrest]
  have hread := h (.closing :: ts) d _ Stops.closing (by
    show Cursor.At (f.lexemes 6 ++ .closing :: ts) d _
    rw [hlexemes]
    exact hinner)
  rw [← hneed]
  refine (hread.bind _).state ?_
  rintro ⟨e, c'⟩ ⟨rfl, hc'⟩
  obtain ⟨g, hg, heat⟩ := hc'.eat
  have hclose : c'.skip.eat? [')'] = some g := heat
  refine ⟨(f.expr, g), ⟨rfl, hg⟩, ?_⟩
  dsimp only
  rw [hclose]

/-- The characters of a number end where digits end, if no exponent follows. -/
theorem numberText_digits {ds rest : List Char} (hds : ∀ a ∈ ds, a.isDigit = true)
    (hrest : ∀ a ∈ rest.head?, isWord a = false ∧ a ≠ '.') : numberText (ds ++ rest) = (ds, rest) := by
  have hclass : ∀ a ∈ ds, isDigitOrPoint a = true := fun a ha => isDigitOrPoint_of_digit (hds a ha)
  have hend : ∀ a ∈ rest.head?, isDigitOrPoint a = false := by
    intro a ha
    obtain ⟨hword, hpoint⟩ := hrest a ha
    rw [← Bool.not_eq_true, isWord_iff] at hword
    rw [ne_eq, char_eq_iff] at hpoint
    rw [← Bool.not_eq_true, isDigitOrPoint_iff]
    simp only [Char.reduceToNat] at hpoint
    omega
  unfold numberText
  rw [takeWhile_run hclass hend, dropWhile_run hclass hend]
  dsimp only
  split
  · rename_i e s rest'
    refine if_neg fun h => ?_
    have hword : isWord e = false := (hrest e rfl).1
    rcases Bool.or_eq_true_iff.1 (Bool.and_eq_true_iff.1 h).1 with he | he
    · exact absurd (of_decide_eq_true he ▸ hword) (by decide)
    · exact absurd (of_decide_eq_true he ▸ hword) (by decide)
  · rfl

theorem ReadsAtom.number (n : Numeral) : ReadsAtom (.number n) := by
  intro ts d c hroom hts hc
  rw [Formula.lexemes_number, List.singleton_append] at hc
  obtain ⟨rest, hrest, hnext⟩ := hc.front
  obtain ⟨a, cs, hdigits⟩ := List.exists_cons_of_ne_nil n.nonempty
  have ha : isDigitOrPoint a = true :=
    isDigitOrPoint_of_digit (n.digit a (hdigits ▸ List.mem_cons_self))
  have htext : c.skip.rest = a :: (cs ++ rest) := by
    rw [hrest, show (Lexeme.number n).text = a :: cs from hdigits]
    rfl
  have hnumber : numberText (a :: (cs ++ rest)) = (n.digits, rest) := by
    have hrun := hnext.run_ends fun x hx => ⟨(hts.head hx).1, (hts.head hx).2.1⟩
    have h := numberText_digits n.digit hrun
    rw [hdigits] at h ⊢
    exact h
  have hvalue : double? (numberText (a :: (cs ++ rest))).1 = some n.value := by
    rw [hnumber]
    exact double?_digits n.nonempty n.digit
  rw [atom_number htext ha hvalue, hnumber]
  exact ⟨fun _ => ⟨_, ⟨rfl, hnext⟩, rfl⟩, fun h => absurd hroom h⟩

section

variable {x : Identifier} {us : List Lexeme}

/-- A name is read up to its end, if what comes next starts with no word. -/
theorem atom_identifier (hc : c.At (.name x :: us) d)
    (hus : ∀ a, firstChar us = some a → isWord a = false ∧ a ≠ '.') :
    ∃ e : Cursor, e.At us d ∧ answer (atom c.skip) =
      match e.skip.eat? ['('] with
      | none => .ok (.variable x.name, e.skip)
      | some f =>
        match f.skip.eat? [')'] with
        | some k => .ok (.call x.name [], k)
        | none => (answerArgs (arguments f.skip)).map fun y => (.call x.name y.1, y.2) := by
  obtain ⟨rest, hrest, hnext⟩ := hc.front
  have hend : ∀ a ∈ rest.head?, isWord a = false := fun a ha => (hnext.run_ends hus a ha).1
  have hstart : c.skip.rest = x.first :: (x.rest ++ rest) := hrest
  have hname := atom_name hstart x.starts
  rw [takeWhile_run x.word hend, dropWhile_run x.word hend] at hname
  exact ⟨_, hnext, hname⟩

end

theorem ReadsAtom.variable (x : Identifier) : ReadsAtom (.variable x) := by
  intro ts d c hroom hts hc
  rw [Formula.lexemes_variable, List.singleton_append] at hc
  obtain ⟨e, he, hatom⟩ := atom_identifier hc fun a ha => ⟨(hts.head ha).1, (hts.head ha).2.1⟩
  have hnone : e.skip.eat? ['('] = none := eat?_none fun h => by
    rw [he.skip_head] at h
    exact (hts.head h).2.2 rfl
  rw [hatom, hnone]
  exact ⟨fun _ => ⟨_, ⟨rfl, he.skip⟩, rfl⟩, fun h => absurd hroom h⟩

/-- Arguments are read up to the parenthesis behind them. -/
def ReadsArgs (fs : List Formula) : Prop :=
  ∀ ts d (c : Cursor), c.At (Formula.bareArgs fs ++ .closing :: ts) d →
    Reaches (answerArgs (arguments c)) (d + Formula.needArgs fs ≤ maxDepth)
      (fun x => x.1 = Formula.exprs fs ∧ x.2.At ts d) .ok

theorem ReadsAtom.call_nil (x : Identifier) : ReadsAtom (.call x []) := by
  intro ts d c hroom hts hc
  have hcall : c.At (.name x :: .opening :: .closing :: ts) d := by
    rw [Formula.lexemes_call, Formula.bareArgs] at hc
    exact hc
  obtain ⟨e, he, hatom⟩ := atom_identifier hcall (by rintro a ⟨⟩; decide)
  obtain ⟨f, hf, hopen⟩ := he.eat
  obtain ⟨k, hk, hclose⟩ := hf.eat
  have hopen' : e.skip.eat? ['('] = some f := hopen
  have hclose' : f.skip.eat? [')'] = some k := hclose
  rw [hatom, hopen']
  dsimp only
  rw [hclose']
  exact ⟨fun _ => ⟨_, ⟨rfl, hk⟩, rfl⟩, fun h => absurd hroom h⟩

theorem ReadsArgs.call (h : ReadsArgs (f :: fs)) (x : Identifier) : ReadsAtom (.call x (f :: fs)) := by
  intro ts d c hroom hts hc
  rw [Formula.lexemes_call, List.append_assoc] at hc
  obtain ⟨e, he, hatom⟩ := atom_identifier hc (by rintro a ⟨⟩; decide)
  obtain ⟨g, hg, hopen⟩ := he.eat
  have hopen' : e.skip.eat? ['('] = some g := hopen
  have hnone : g.skip.eat? [')'] = none := eat?_none fun hhead => by
    rw [hg.skip_head] at hhead
    exact Formula.firstChar_bareArgs hhead (by decide)
  rw [hatom, hopen']
  dsimp only
  rw [hnone]
  exact (h ts d g.skip hg.skip).map fun y hy => ⟨congrArg (Expr.call x.name) hy.1, hy.2⟩

theorem ReadsLevel.lastArg (h : ReadsLevel loosest f) : ReadsArgs [f] := by
  intro ts d c hc
  have hlexemes : f.lexemes (loosest + 1) = f.bare := Formula.lexemes_of_le f.rank_le
  rw [Formula.bareArgs, ← hlexemes] at hc
  have hneed : Formula.needArgs [f] = f.needIn 6 := Nat.max_zero _
  rw [arguments_eq, hneed]
  refine ((h _ d c Stops.closing hc).bind _).state ?_
  rintro ⟨e, c'⟩ ⟨rfl, hc'⟩
  obtain ⟨g, hg, heat⟩ := hc'.eat
  have hclose : c'.skip.eat? [')'] = some g := heat
  refine ⟨([f.expr], g), ⟨rfl, hg⟩, ?_⟩
  dsimp only
  rw [hclose]

theorem ReadsLevel.moreArgs {g : Formula} (h : ReadsLevel loosest f) (hs : ReadsArgs (g :: fs)) :
    ReadsArgs (f :: g :: fs) := by
  intro ts d c hc
  have hlexemes : f.lexemes (loosest + 1) = f.bare := Formula.lexemes_of_le f.rank_le
  rw [Formula.bareArgs, ← hlexemes, List.append_assoc] at hc
  have hneed : Formula.needArgs (f :: g :: fs) =
    max (f.needIn (loosest + 1)) (Formula.needArgs (g :: fs)) := rfl
  rw [arguments_eq, hneed]
  refine (((h _ d c Stops.comma hc).bind _).trans
    (q := d + Formula.needArgs (g :: fs) ≤ maxDepth) ?_).room (by omega)
  rintro ⟨e, c'⟩ ⟨rfl, hc'⟩
  obtain ⟨k, hk, heat⟩ := hc'.eat
  have hcomma : c'.skip.eat? [','] = some k := heat
  have hnone : c'.skip.eat? [')'] = none := eat?_none fun hhead => by
    rw [hc'.skip_head] at hhead
    exact absurd (Option.some.inj hhead) (by decide)
  dsimp only
  rw [hnone]
  dsimp only
  rw [hcomma]
  exact (hs ts d k hk).map fun y hy => ⟨congrArg (f.expr :: ·) hy.1, hy.2⟩

end

/-! ## Every formula is read -/

section

variable {k : Nat} {f : Formula}

/-- What a row reads with its own operators, all looser rows read. -/
theorem ReadsLevel.looser (h : ReadsLevel k f) (hf : f.rank ≤ k + 1) (n : Nat) :
    ReadsLevel (k + n) f := by
  induction n with
  | zero => exact h
  | succ n ih => exact ih.succ (by omega)

/-- What stands in parentheses as an atom does so in all tighter rows. -/
theorem ReadsAtom.tighter (h : ReadsAtom f) : ∀ n, n + 1 < f.rank → ReadsLevel n f
  | 0, hn => h.level (by omega)
  | n + 1, hn => (h.tighter n (by omega)).succ (by omega)

/-- **What is read as an atom and by its own row is read everywhere.** -/
theorem Reads.of_atom (hatom : ReadsAtom f) (hown : ReadsLevel k f) (hf : f.rank ≤ k + 1)
    (hk : k = 0 ∨ f.rank = k + 1)
    (hspine : ∀ r, f.rank = r + 2 → r + 1 ≠ comparison → ReadsSpine r f) : Reads f := by
  have hlevel (r : Nat) : ReadsLevel r f := by
    rcases Nat.lt_or_ge r k with hlt | hge
    -- a row tighter than its own finds it in parentheses
    · exact hatom.tighter r (by omega)
    · obtain ⟨n, rfl⟩ := Nat.exists_eq_add_of_le hge
      exact hown.looser hf n
  refine ⟨fun r _ => hlevel r, fun r _ hrow => ?_, hatom⟩
  by_cases hr : f.rank = r + 2
  · exact hspine r hr hrow
  · exact (hlevel r).spine hrow hr

/-- An operand is read everywhere. -/
theorem Reads.of_operand (h : ReadsAtom f) (hf : f.rank = 0) : Reads f :=
  .of_atom h (h.level (by omega)) (by omega) (.inl rfl) fun r hr => by omega

/-- What its own row reads stands in parentheses elsewhere. -/
theorem Reads.of_own (h : ReadsLevel k f) (hf : f.rank = k + 1) (hk : k ≤ loosest)
    (hspine : ∀ r, f.rank = r + 2 → r + 1 ≠ comparison → ReadsSpine r f) : Reads f := by
  obtain ⟨n, hn⟩ := Nat.exists_eq_add_of_le hk
  have hloosest : ReadsLevel loosest f := hn ▸ h.looser (Nat.le_of_eq hf) n
  exact .of_atom (hloosest.parenthesised (by omega)) h (Nat.le_of_eq hf) (.inr hf) hspine

end

theorem Reads.neg {f : Formula} (h : Reads f) : Reads (.neg f) :=
  .of_own (h.level 0 (Nat.zero_le _)).neg rfl (Nat.zero_le _) fun _ hr => nomatch hr

theorem Reads.not {f : Formula} (h : Reads f) : Reads (.not f) :=
  .of_own (h.level 0 (Nat.zero_le _)).not rfl (Nat.zero_le _) fun _ hr => nomatch hr

/-- What an operator joins is read if its operands are. -/
theorem Reads.binary {op : BinaryOp} {a b : Formula} (ha : Reads a) (hb : Reads b) :
    Reads (.binary op a b) := by
  have hloosest : loosest = 5 := rfl
  have hcomparison : comparison = 3 := rfl
  have hle := op.rank_le
  have hpos := op.rank_pos
  rcases Nat.eq_or_lt_of_le hpos with hpow | hrow
  · obtain rfl : op = .pow := by cases op <;> first | rfl | exact nomatch hpow
    exact .of_own (ReadsLevel.pow ha.atom (hb.level 0 (by omega))) rfl (by omega)
      fun r hr => nomatch hr
  by_cases hcompare : op.rank = 4
  · exact .of_own (.compare hcompare (ha.level 2 (by omega)) (hb.level 2 (by omega))) hcompare
      (by omega) fun r hr hne => by
        have hrank : op.rank = r + 2 := hr
        omega
  · obtain ⟨r, hr⟩ := Nat.exists_eq_add_of_le' hrow
    have hspine : ReadsSpine r (.binary op a b) :=
      .link hr (by omega) (by omega) (ha.spine r (by omega) (by omega)) (hb.level r (by omega))
    refine .of_own hspine.level hr (by omega) fun r' hr' _ => ?_
    obtain rfl : r = r' := by
      have hrank : op.rank = r' + 2 := hr'
      omega
    exact hspine

/-- A call is read if its arguments are. -/
theorem Reads.call {args : List Formula} (x : Identifier) (h : args ≠ [] → ReadsArgs args) :
    Reads (.call x args) := by
  cases args with
  | nil => exact .of_operand (.call_nil x) rfl
  | cons f fs => exact .of_operand ((h (List.cons_ne_nil f fs)).call x) rfl

mutual

/-- **Every formula is read wherever it may stand.** -/
theorem reads : (f : Formula) → Reads f
  | .number n => .of_operand (.number n) rfl
  | .variable x => .of_operand (.variable x) rfl
  | .neg f => (reads f).neg
  | .not f => (reads f).not
  | .binary _ a b => (reads a).binary (reads b)
  | .call x args => .call x (readsArgs args)

theorem readsArgs : (fs : List Formula) → fs ≠ [] → ReadsArgs fs
  | [], h => absurd rfl h
  | [f], _ => ((reads f).level loosest (Nat.le_refl _)).lastArg
  | f :: g :: fs, _ =>
    ((reads f).level loosest (Nat.le_refl _)).moreArgs (readsArgs (g :: fs) (List.cons_ne_nil g fs))

end

/-! ## The whole text -/

/-- A written formula is read back exactly if there is room for its depth. -/
theorem parse_reaches {f : Formula} {text : String} (h : f.Writes text) :
    Reaches (parse text) (f.needIn 6 ≤ maxDepth) (fun e => e = f.expr) .ok := by
  have hlexemes : f.lexemes (loosest + 1) = f.bare := Formula.lexemes_of_le f.rank_le
  have hstart : Cursor.At (f.lexemes (loosest + 1) ++ []) 0 ⟨text.toList, 0, 0⟩ := by
    rw [hlexemes, List.append_nil]
    exact ⟨h, rfl⟩
  have hread := (reads f).level loosest (Nat.le_refl _) [] 0 _ nofun hstart
  rw [parse_eq]
  refine ((hread.bind _).state ?_).room (by rw [Nat.zero_add]; exact Iff.rfl)
  rintro ⟨e, c⟩ ⟨rfl, hc⟩
  have hend : c.skip.rest = [] := hc.spaced.dropWhile_nil
  refine ⟨f.expr, rfl, ?_⟩
  dsimp only
  rw [hend]
  rfl

/-- **A written formula is read back, or it is nested too deeply**, and no formula of height 15 is.
The reader is at its limit exactly if the counter of depth would rise beyond it. -/
theorem parse_written {f : Formula} {text : String} (h : f.Writes text) :
    (parse text = .ok f.expr ∨ ∃ pos, parse text = .error (.malformed pos .tooDeep)) ∧
      (parse text = .ok f.expr ↔ f.needIn 6 ≤ maxDepth) ∧
      (f.height ≤ 15 → parse text = .ok f.expr) := by
  have hreaches := parse_reaches h
  have hfits : f.needIn 6 ≤ maxDepth → parse text = .ok f.expr := by
    intro hroom
    obtain ⟨e, rfl, hparse⟩ := hreaches.arrives hroom
    exact hparse
  refine ⟨?_, ⟨fun hparse => ?_, hfits⟩, fun hheight => hfits (Formula.needIn_le_maxDepth hheight 6)⟩
  · by_cases hroom : f.needIn 6 ≤ maxDepth
    · exact .inl (hfits hroom)
    · exact .inr (hreaches.fails hroom)
  · by_contra hroom
    obtain ⟨pos, hdeep⟩ := hreaches.fails hroom
    exact nomatch hparse.symm.trans hdeep

/-- A sign in front of a power, and a sum in parentheses. -/
theorem parse_written_product :
    let two : Numeral := ⟨['2'], List.cons_ne_nil _ _, List.all_eq_true.1 rfl⟩
    let x : Identifier := ⟨'x', [], by decide, nofun⟩
    let f : Formula := .binary .mul (.neg (.binary .pow (.number two) (.variable x)))
      (.binary .add (.variable x) (.call x [.number two]))
    f.Writes "-2^x * (x+ x( 2))" ∧ f.height ≤ 15 ∧ f.needIn 6 ≤ maxDepth ∧
      parse "-2^x * (x+ x( 2))" =
        .ok (.binary .mul (.neg (.binary .pow (.number two.value) (.variable "x")))
          (.binary .add (.variable "x") (.call "x" [.number two.value]))) := by
  intro two x f
  have hwrites : f.Writes "-2^x * (x+ x( 2))" := by
    show Spaced isSpace _ (String.ofList _).toList
    rw [String.toList_ofList]
    have space : ∀ c ∈ [' '], isSpace c = true := List.all_eq_true.1 rfl
    exact ⟨[], _, rfl, nofun, [], _, rfl, nofun, [], _, rfl, nofun, [], _, rfl, nofun,
      [' '], _, rfl, space, [' '], _, rfl, space, [], _, rfl, nofun, [], _, rfl, nofun,
      [' '], _, rfl, space, [], _, rfl, nofun, [' '], _, rfl, space, [], _, rfl, nofun,
      [], _, rfl, nofun, nofun⟩
  have hheight : f.height ≤ 15 := by decide
  have hread := parse_written hwrites
  exact ⟨hwrites, hheight, hread.2.1.1 (hread.2.2 hheight), hread.2.2 hheight⟩

end VoxelEdit.Expr
