import Mathlib.Order.Bounds.Basic
import VoxelEdit.Proofs.FormulaReading
import VoxelEdit.Proofs.ReaderSuccess

/-!
# How high the tree of a formula can be

The counter of depth bounds the nesting of a text. It does not bound the height of the tree: a chain
gives its links back when it ends, while the tree that it has built stays, as the left operand of the
next chain.

* `Expr.height`: the number of edges on the longest path from the root.
* `tallest r n`: the greatest height of a formula of row `r` that is read with `n` levels to spare.
  Each row of chains adds `n`, and a level of parentheses starts over with one level less, so that it
  grows with the square of `n` (`tallestSigned_eq`).
* `within`: **no reader builds a tree that is higher than that, or than its text is long enough for.**
* `greatest_height`: **the highest tree that is read from any text has 131326 edges from its root.**
  `Formula.summit` is a formula that is as high.
* `shallow_iff_short`: **the trees of all texts of up to 259 characters are no higher than the bound on
  the depth, and those of longer texts are not all.**
-/

namespace VoxelEdit

open Number Text

namespace Expr

/-! ## Heights -/

mutual

/-- The number of edges on the longest path from the root of a tree. -/
def height : Expr → Nat
  | .number _ | .variable _ => 0
  | .neg e | .not e => e.height + 1
  | .binary _ a b => max a.height b.height + 1
  | .call _ args => heights args

/-- One more than the greatest height of arguments, if there are any. -/
def heights : List Expr → Nat
  | [] => 0
  | e :: es => max (e.height + 1) (heights es)

end

/-- The greatest height of a signed formula that is read with `n` levels to spare. -/
def tallestSigned : Nat → Nat
  | 0 => 0
  | n + 1 => tallestSigned n + 4 * n + 3

/-- The rows of chains up to row `r`: all but the row of comparisons. -/
def chainRows (r : Nat) : Nat := if r < comparison then r else r - 1

/-- The greatest height of a formula of row `r` that is read with `n` levels to spare. -/
def tallest (r n : Nat) : Nat :=
  tallestSigned n + chainRows r * n + if r < comparison then 0 else 1

theorem tallestSigned_eq (n : Nat) : tallestSigned n = n * (2 * n + 1) := by
  induction n with
  | zero => rfl
  | succ n ih =>
    rw [tallestSigned, ih]
    ring

theorem tallest_zero (n : Nat) : tallest 0 n = tallestSigned n := by
  simp [tallest, chainRows, comparison]

theorem tallest_loosest (n : Nat) : tallest loosest n = tallestSigned n + 4 * n + 1 := by
  simp [tallest, chainRows, comparison, loosest]

/-- A level of parentheses starts over with one level less to spare. -/
theorem tallestSigned_succ (n : Nat) : tallestSigned (n + 1) = tallest loosest n + 2 := by
  rw [tallest_loosest, tallestSigned]

theorem tallest_comparison (n : Nat) : tallest comparison n = tallest 2 n + 1 := by
  simp [tallest, chainRows, comparison]

/-- A row of chains adds a link for each level to spare. -/
theorem tallest_chain {r : Nat} (h : r + 1 ≠ comparison) (n : Nat) :
    tallest (r + 1) n = tallest r n + n := by
  unfold tallest chainRows
  unfold comparison at h ⊢
  by_cases hr : r + 1 < 3
  · rw [if_pos hr, if_pos hr, if_pos (by omega), if_pos (by omega)]
    ring
  · obtain ⟨k, rfl⟩ : ∃ k, r = k + 3 := ⟨r - 3, by omega⟩
    rw [if_neg hr, if_neg hr, if_neg (by omega), if_neg (by omega)]
    simp only [Nat.add_sub_cancel, Nat.add_succ_sub_one]
    ring

theorem tallest_mono (r n : Nat) : tallest r n ≤ tallest r (n + 1) := by
  unfold tallest
  have hrows : chainRows r * n ≤ chainRows r * (n + 1) := Nat.mul_le_mul_left _ (Nat.le_succ n)
  rw [tallestSigned]
  omega

/-! ## No reader builds a higher tree -/

/-- What a reader with `n` levels to spare makes of a text. It leaves the depth as it found it. All
edges of the tree but those of signs cost two characters, and a sign costs a level. -/
structure Fits (limit n : Nat) (c : Cursor) (x : Expr × Cursor) : Prop where
  depth : x.2.depth = c.depth
  height : x.1.height ≤ limit
  length : 2 * x.1.height + 1 + x.2.rest.length ≤ c.rest.length + n

/-- What the readers make of fewer than `m` characters. A chain goes on with what stood in front of
it, from `l` characters on. -/
structure Within (m : Nat) : Prop where
  signed : ∀ {c x}, c.rest.length < m → answer (signed c) = .ok x →
    ∃ n, c.depth + n + 1 = maxDepth ∧ Fits (tallestSigned n) n c x
  level : ∀ {r c x}, c.rest.length < m → answer (level r c) = .ok x →
    ∃ n, c.depth + n + 1 = maxDepth ∧ Fits (tallest r n) n c x
  chain : ∀ {r links lhs c x n k l}, c.rest.length < m → c.depth + n + 1 = maxDepth →
    answer (chain r links lhs c) = .ok x → c.rest.length < l → n ≤ k →
    2 * lhs.height + 1 + c.rest.length ≤ l + k →
      x.2.depth = c.depth - links ∧ x.1.height ≤ max lhs.height (tallest r n) + n ∧
        2 * x.1.height + 1 + x.2.rest.length ≤ l + k
  arguments : ∀ {c xs}, c.rest.length < m → answerArgs (arguments c) = .ok xs →
    ∃ n, c.depth + n + 1 = maxDepth ∧ xs.2.depth = c.depth ∧ heights xs.1 ≤ tallest loosest n + 1 ∧
      2 * heights xs.1 + xs.2.rest.length ≤ c.rest.length + n + 1

section

variable {m r links n k l : Nat} {c : Cursor} {lhs : Expr} {x : Expr × Cursor}

/-- An atom is no higher than a call around a formula of the loosest row. -/
theorem Within.atom (ih : Within m) (hm : c.rest.length ≤ m) (hn : c.depth + n = maxDepth)
    (h : answer (atom c) = .ok x) : Fits (tallestSigned n - 1) n c x := by
  have deeper {k : Nat} (hk : c.depth + k + 1 = maxDepth) :
      tallest loosest k + 2 = tallestSigned n := by
    obtain rfl : n = k + 1 := by omega
    rw [tallestSigned_succ]
  have hread := answer_shorter h
  rcases atom_ok h with ⟨d, y, hd, hlength, hy, hexpr, hx, hrest⟩ | ⟨hx, hleaf⟩ |
    ⟨d, name, y, hd, hlength, hy, rfl⟩
  · obtain ⟨k, hk, hdepth, hheight, htotal⟩ := ih.level (by omega) hy
    have hbound := deeper (k := k) (by omega)
    rw [← hexpr] at hheight htotal
    exact ⟨by omega, by omega, by omega⟩
  · have hzero : x.1.height = 0 := by
      rcases hleaf with ⟨v, hv⟩ | ⟨name, hv⟩ | ⟨name, hv⟩ <;> rw [hv] <;> rfl
    exact ⟨hx, by omega, by omega⟩
  · obtain ⟨k, hk, hdepth, hheight, htotal⟩ := ih.arguments (by omega) hy
    have hbound := deeper (k := k) (by omega)
    have hcall : (Expr.call name y.1).height = heights y.1 := rfl
    exact ⟨by dsimp only; omega, by dsimp only; omega, by dsimp only; omega⟩

theorem Within.power (ih : Within m) (hm : c.rest.length ≤ m) (hn : c.depth + n = maxDepth)
    (h : answer (power c) = .ok x) : Fits (tallestSigned n) n c x := by
  obtain ⟨y, hy, hx⟩ := power_ok h
  obtain ⟨hdepth, hheight, htotal⟩ := ih.atom hm hn hy
  have hread := answer_shorter hy
  rcases hx with rfl | ⟨f, z, hf, hlength, hz, rfl⟩
  · have hskip := y.2.skip_length_le
    exact ⟨hdepth, by dsimp only; omega, by dsimp only; omega⟩
  · obtain ⟨k, hk, hz', hexponent, hpart⟩ := ih.signed (by omega) hz
    have hread' := answer_shorter hz
    -- the exponent starts at the depth of the atom, one level below the formula
    obtain rfl : n = k + 1 := by omega
    have hbinary : (Expr.binary .pow y.1 z.1).height = max y.1.height z.1.height + 1 := rfl
    have hnext := tallestSigned_succ k
    rw [tallest_loosest] at hnext
    exact ⟨by dsimp only; omega, by dsimp only; omega, by dsimp only; omega⟩

theorem Within.signed_le (ih : Within m) (hm : c.rest.length ≤ m)
    (h : answer (Expr.signed c) = .ok x) :
    ∃ n, c.depth + n + 1 = maxDepth ∧ Fits (tallestSigned n) n c x := by
  obtain ⟨d, hd, hmax, hlength, hcases⟩ := signed_ok h
  obtain ⟨n, hn⟩ := Nat.exists_eq_add_of_le hmax
  refine ⟨n, by omega, ?_⟩
  rcases hcases with ⟨e, y, he, hshorter, hy, hnext, hexpr⟩ | ⟨y, hy, rfl⟩
  · obtain ⟨k, hk, hdepth, hheight, htotal⟩ := ih.signed (by omega) hy
    obtain rfl : n = k + 1 := by omega
    have hx : x.1.height ≤ y.1.height + 1 := by
      rcases hexpr with hexpr | hexpr | hexpr <;> rw [hexpr]
      · exact Nat.le_succ _
      · exact Nat.le_refl _
      · exact Nat.le_refl _
    have hsucc : tallestSigned (k + 1) = tallestSigned k + 4 * k + 3 := rfl
    have hrest : x.2.rest = y.2.rest := by
      rw [hnext]
      rfl
    have hleave : x.2.depth = y.2.depth - 1 := by
      rw [hnext]
      rfl
    rw [← hrest] at htotal
    exact ⟨by omega, by omega, by omega⟩
  · obtain ⟨hdepth, hheight, htotal⟩ := ih.power (by omega) (n := n) (by omega) hy
    have hrest : (y.2.leave 1).rest = y.2.rest := rfl
    rw [← hrest] at htotal
    exact ⟨by dsimp only; rw [Cursor.leave_depth]; omega, hheight, by dsimp only; omega⟩

/-- A link adds one to the height for two characters, and leaves one level less to spare. -/
theorem Within.chain_le (ih : Within m) (hm : c.rest.length ≤ m) (hn : c.depth + n + 1 = maxDepth)
    (h : answer (Expr.chain r links lhs c) = .ok x) (hl : c.rest.length < l) (hk : n ≤ k)
    (hlhs : 2 * lhs.height + 1 + c.rest.length ≤ l + k) :
    x.2.depth = c.depth - links ∧ x.1.height ≤ max lhs.height (tallest r n) + n ∧
      2 * x.1.height + 1 + x.2.rest.length ≤ l + k := by
  rcases chain_ok h with rfl | ⟨op, f, y, hf, hmax, hlength, hy, hrest⟩
  · exact ⟨rfl, by dsimp only; omega, hlhs⟩
  · obtain ⟨j, hj, hdepth, hheight, htotal⟩ := ih.level (by omega) hy
    have hread := answer_shorter hy
    have hskip := y.2.skip_length_le
    have hbinary : (Expr.binary op lhs y.1).height = max lhs.height y.1.height + 1 := rfl
    obtain ⟨hdepth', hheight', htotal'⟩ := ih.chain (n := j) (k := k) (l := l) (by omega)
      (by rw [Cursor.skip_depth]; omega) hrest (by omega) (by omega) (by omega)
    obtain rfl : n = j + 1 := by omega
    have hmono := tallest_mono r j
    rw [Cursor.skip_depth] at hdepth'
    exact ⟨by omega, by omega, htotal'⟩

theorem Within.level_le (ih : Within m) (hm : c.rest.length ≤ m)
    (h : answer (Expr.level r c) = .ok x) :
    ∃ n, c.depth + n + 1 = maxDepth ∧ Fits (tallest r n) n c x := by
  induction r generalizing x with
  | zero =>
    rw [level_zero] at h
    simp only [tallest_zero]
    exact ih.signed_le hm h
  | succ r hr =>
    by_cases hrow : r + 1 = comparison
    · obtain rfl : r = 2 := Nat.succ.inj hrow
      obtain ⟨y, hy, hx⟩ := level_comparison_ok h
      obtain ⟨n, hn, hdepth, hheight, htotal⟩ := hr hy
      have hbound : tallest (2 + 1) n = tallest 2 n + 1 := tallest_comparison n
      have hread := answer_shorter hy
      refine ⟨n, hn, ?_⟩
      rcases hx with rfl | ⟨op, f, z, hf, hlength, hz, rfl⟩
      · have hskip := y.2.skip_length_le
        exact ⟨hdepth, by dsimp only; omega, by dsimp only; omega⟩
      · obtain ⟨k, hk, hdepth', hheight', htotal'⟩ := ih.level (by omega) hz
        have hread' := answer_shorter hz
        obtain rfl : n = k := by omega
        have hbinary : (Expr.binary op y.1 z.1).height = max y.1.height z.1.height + 1 := rfl
        exact ⟨by dsimp only; omega, by dsimp only; omega, by dsimp only; omega⟩
    · obtain ⟨y, hy, hchain⟩ := level_chain_ok hrow h
      obtain ⟨n, hn, hdepth, hheight, htotal⟩ := hr hy
      have hread := answer_shorter hy
      have hskip := y.2.skip_length_le
      obtain ⟨hdepth', hheight', htotal'⟩ := ih.chain_le (n := n) (k := n) (l := c.rest.length)
        (by omega) (by rw [Cursor.skip_depth]; omega) hchain (by omega) (Nat.le_refl n) (by omega)
      have hbound := tallest_chain hrow n
      rw [Cursor.skip_depth] at hdepth'
      exact ⟨n, hn, by omega, by omega, htotal'⟩

theorem Within.arguments_le (ih : Within m) (hm : c.rest.length ≤ m) {xs : List Expr × Cursor}
    (h : answerArgs (Expr.arguments c) = .ok xs) :
    ∃ n, c.depth + n + 1 = maxDepth ∧ xs.2.depth = c.depth ∧
      heights xs.1 ≤ tallest loosest n + 1 ∧
      2 * heights xs.1 + xs.2.rest.length ≤ c.rest.length + n + 1 := by
  obtain ⟨y, hy, hxs⟩ := arguments_ok h
  obtain ⟨n, hn, hdepth, hheight, htotal⟩ := ih.level_le hm hy
  have hread := answer_shorter hy
  refine ⟨n, hn, ?_⟩
  rcases hxs with ⟨hlast, hdepth', hrest⟩ | ⟨d, ys, hd, hlength, hys, rfl⟩
  · have hone : heights [y.1] = y.1.height + 1 := Nat.max_zero _
    rw [hlast]
    exact ⟨by omega, by omega, by omega⟩
  · obtain ⟨k, hk, hdepth', hheight', htotal'⟩ := ih.arguments (by omega) hys
    have hread' := answerArgs_shorter hys
    obtain rfl : n = k := by omega
    have hcons : heights (y.1 :: ys.1) = max (y.1.height + 1) (heights ys.1) := rfl
    exact ⟨by dsimp only; omega, by dsimp only; omega, by dsimp only; omega⟩

end

/-- **No reader builds a tree that is higher than its levels and its text allow**, by induction on
the characters to come: one step of each reader, from the readers on shorter texts. -/
theorem within (m : Nat) : Within m := by
  induction m with
  | zero => exact ⟨nofun, nofun, nofun, nofun⟩
  | succ m ih =>
    exact ⟨fun hc => ih.signed_le (by omega), fun hc => ih.level_le (by omega),
      fun hc hn h hl hk hlhs => ih.chain_le (by omega) hn h hl hk hlhs,
      fun hc => ih.arguments_le (by omega)⟩

/-- The tree of a text is no higher than all levels allow, and no higher than its length does. -/
theorem height_le {text : String} {e : Expr} (h : parse text = .ok e) :
    e.height ≤ tallest loosest (maxDepth - 1) ∧ 2 * e.height + 1 ≤ text.length + (maxDepth - 1) := by
  obtain ⟨y, hy, rfl⟩ := parse_ok h
  obtain ⟨n, hn, -, hheight, htotal⟩ := (within _).level (Nat.lt_succ_self _) hy
  obtain rfl : n = maxDepth - 1 := by
    dsimp only at hn
    omega
  rw [String.length_toList] at htotal
  exact ⟨hheight, by omega⟩

end Expr

/-! ## Formulas of the greatest height -/

namespace Formula

mutual

theorem height_expr : (f : Formula) → f.expr.height = f.height
  | .number _ | .variable _ => rfl
  | .neg f | .not f => congrArg (· + 1) f.height_expr
  | .binary _ a b => by
    have ha := a.height_expr
    have hb := b.height_expr
    simp only [expr, height, Expr.height, ha, hb]
  | .call _ args => heights_exprs args

theorem heights_exprs : (fs : List Formula) → Expr.heights (exprs fs) = heights fs
  | [] => rfl
  | f :: fs => by
    have hf := f.height_expr
    have hfs := heights_exprs fs
    simp only [exprs, heights, Expr.heights, hf, hfs]

end

/-- A formula with `k` links of an operator behind it, all to the same name. -/
def linked (op : BinaryOp) (x : Identifier) (f : Formula) : Nat → Formula
  | 0 => f
  | k + 1 => .binary op (linked op x f k) (.variable x)

section

variable (op : BinaryOp) {x : Identifier} {f : Formula} {m : Nat}

theorem height_linked (k : Nat) : (linked op x f k).height = f.height + k := by
  induction k with
  | zero => rfl
  | succ k ih =>
    rw [linked, height, ih]
    exact congrArg (· + 1) (Nat.max_zero _)

theorem rank_linked (h : f.rank ≤ op.rank) (k : Nat) : (linked op x f k).rank ≤ op.rank := by
  cases k with
  | zero => exact h
  | succ k => exact Nat.le_refl _

theorem links_linked (h : f.rank ≠ op.rank) (k : Nat) : (linked op x f k).links op.rank = k := by
  induction k with
  | zero => exact links_of_ne h
  | succ k ih =>
    rw [linked, links, if_pos rfl, ih]

/-- A chain of `k` links needs a level for each of them, and one for the last operand. -/
theorem needIn_linked {r : Nat} (hop : BinaryOp.Chains (r + 1)) (hr : op.rank = r + 1)
    (hrank : f.rank ≤ r) (hf : f.needIn r ≤ m) {k : Nat} (hk : k + 1 ≤ m) :
    (linked op x f k).needIn (r + 1) ≤ m := by
  induction k with
  | zero =>
    rw [linked, needIn_succ (by omega)]
    exact hf
  | succ k ih =>
    have hname : (Formula.variable x).needIn (op.rank - 1) = 1 := rfl
    rw [← hr, linked, needIn_chain (hr ▸ hop), links_linked op (by omega), hname, hr]
    exact Nat.max_le.2 ⟨ih (by omega), hk⟩

/-- The links of a chain stand behind its first operand. -/
theorem bare_linked (hop : BinaryOp.Chains op.rank) (hrank : f.rank ≤ op.rank) (k : Nat) :
    (linked op x f k).bare =
      f.bare ++ (List.replicate k [Lexeme.operator op, .name x]).flatten := by
  induction k with
  | zero => exact (List.append_nil _).symm
  | succ k ih =>
    have hleft : op.left = op.rank := if_pos hop
    have hbare : bracketed op.left (linked op x f k).rank (linked op x f k).bare =
        (linked op x f k).bare := by
      rw [hleft]
      exact if_neg (Nat.not_lt.2 (rank_linked op hrank k))
    have hname : bracketed op.right (Formula.variable x).rank (Formula.variable x).bare =
        [.name x] := if_neg (Nat.not_lt_zero _)
    rw [linked, bare, hbare, hname, ih, List.replicate_succ', List.flatten_concat,
      List.append_assoc]

end

/-- A signed formula with `n` factors and `n` summands behind it, in a comparison. -/
def compared (x : Identifier) (n : Nat) (f : Formula) : Formula :=
  .binary .lt (linked .add x (linked .mul x f n) n) (.variable x)

/-- A signed formula with `n` links in each row of chains behind it. -/
def rows (x : Identifier) (n : Nat) (f : Formula) : Formula :=
  linked .or x (linked .and x (compared x n f) n) n

section

variable {x : Identifier} {n : Nat} {f : Formula}

theorem height_rows : (rows x n f).height = f.height + 4 * n + 1 := by
  have hcompared : (compared x n f).height = f.height + n + n + 1 := by
    rw [compared, height, height_linked, height_linked]
    exact congrArg (· + 1) (Nat.max_zero _)
  rw [rows, height_linked, height_linked, hcompared]
  omega

theorem needIn_compared (hrank : f.rank ≤ 1) (hf : f.needIn 1 ≤ n + 1) :
    (compared x n f).needIn 4 ≤ n + 1 := by
  have hproduct : (linked .mul x f n).needIn 2 ≤ n + 1 :=
    needIn_linked .mul (by decide) rfl hrank hf (Nat.le_refl _)
  have hsum : (linked .add x (linked .mul x f n) n).needIn 3 ≤ n + 1 :=
    needIn_linked .add (by decide) rfl (rank_linked .mul (Nat.le_succ_of_le hrank) n) hproduct
      (Nat.le_refl _)
  have hneed : (compared x n f).needIn BinaryOp.lt.rank = _ := needIn_comparison rfl
  rw [show BinaryOp.lt.rank = 4 from rfl] at hneed
  rw [hneed]
  exact Nat.max_le.2 ⟨hsum, Nat.succ_le_succ (Nat.zero_le n)⟩

/-- Every row needs the same levels: its links are counted only while they are read. -/
theorem needIn_rows (hrank : f.rank ≤ 1) (hf : f.needIn 1 ≤ n + 1) :
    (rows x n f).needIn 6 ≤ n + 1 := by
  have hand : (linked .and x (compared x n f) n).needIn 5 ≤ n + 1 :=
    needIn_linked .and (f := compared x n f) (by decide) rfl (Nat.le_refl 4)
      (needIn_compared hrank hf) (Nat.le_refl _)
  have hrank : (linked .and x (compared x n f) n).rank ≤ 5 :=
    rank_linked .and (f := compared x n f) (Nat.le_succ 4) n
  exact needIn_linked .or (by decide) rfl hrank hand (Nat.le_refl _)

end

/-- A formula that uses up `n` levels and one more: chains of `n` links behind a power, whose base
is a call of such a formula for one level less. -/
def summit (x : Identifier) : Nat → Formula
  | 0 => rows x 0 (.variable x)
  | n + 1 => rows x (n + 1) (.binary .pow (.call x [summit x n]) (.variable x))

theorem height_summit (x : Identifier) (n : Nat) :
    (summit x n).height = Expr.tallest Expr.loosest n := by
  induction n with
  | zero => exact height_rows
  | succ n ih =>
    have hpower : (binary .pow (call x [summit x n]) (.variable x)).height =
        (summit x n).height + 2 := by
      show max (max ((summit x n).height + 1) 0) 0 + 1 = _
      rw [Nat.max_zero, Nat.max_zero]
    rw [summit, height_rows, hpower, ih, Expr.tallest_loosest, Expr.tallest_loosest,
      Expr.tallestSigned]

theorem needIn_summit (x : Identifier) (n : Nat) : (summit x n).needIn 6 ≤ n + 1 := by
  induction n with
  | zero => exact needIn_rows (Nat.zero_le 1) (Nat.le_refl 1)
  | succ n ih =>
    have hpower : (binary .pow (call x [summit x n]) (.variable x)).needIn 1 =
        max (max ((summit x n).needIn 6) 0) 1 + 1 := needIn_power
    refine needIn_rows (Nat.le_refl 1) ?_
    rw [hpower]
    omega

/-- A formula with `k` minus signs in front of it. -/
def negated (f : Formula) : Nat → Formula
  | 0 => f
  | k + 1 => .neg (negated f k)

section

variable {f : Formula}

theorem height_negated (k : Nat) : (negated f k).height = f.height + k := by
  induction k with
  | zero => rfl
  | succ k ih =>
    rw [negated, height, ih]
    rfl

theorem rank_negated (h : f.rank ≤ 1) (k : Nat) : (negated f k).rank ≤ 1 := by
  cases k with
  | zero => exact h
  | succ k => exact Nat.le_refl 1

/-- Every sign needs a level. -/
theorem needIn_negated (k : Nat) : (negated f k).needIn 1 = f.needIn 1 + k := by
  induction k with
  | zero => rfl
  | succ k ih =>
    rw [negated, needIn_neg, ih]
    rfl

theorem bare_negated (h : f.rank ≤ 1) (k : Nat) :
    (negated f k).bare = List.replicate k .minus ++ f.bare := by
  induction k with
  | zero => rfl
  | succ k ih =>
    have hsign := lexemes_neg (negated f k)
    rw [lexemes_of_le (Nat.le_refl 1), lexemes_of_le (rank_negated h k), ih] at hsign
    rw [negated, hsign]
    rfl

end

/-- Every formula can be written down. -/
theorem exists_writes (f : Formula) : ∃ text, f.Writes text := by
  refine ⟨String.ofList (f.bare.map Lexeme.text).flatten, ?_⟩
  rw [Writes, String.toList_ofList]
  exact Spaced.flatten _

end Formula

/-! ## The greatest height -/

namespace Expr

open Formula

/-- The name `x`. -/
def nameX : Identifier := ⟨'x', [], by decide, nofun⟩

/-- The bound is met: with `n` levels to spare, some text is read as a tree of that height. -/
theorem exists_height {n : Nat} (hn : n + 1 ≤ maxDepth) :
    ∃ text e, parse text = .ok e ∧ e.height = tallest loosest n := by
  obtain ⟨text, htext⟩ := (summit nameX n).exists_writes
  obtain ⟨e, rfl, hparse⟩ := (parse_reaches htext).arrives ((needIn_summit nameX n).trans hn)
  exact ⟨text, _, hparse, by rw [height_expr, height_summit]⟩

/-- **The highest tree that is read has 131326 edges between its root and a leaf.** No text has a
higher one, and some text has one. -/
theorem greatest_height :
    IsGreatest {n | ∃ text e, parse text = .ok e ∧ e.height = n} 131326 := by
  have hvalue : tallest loosest (maxDepth - 1) = 131326 := by
    rw [tallest_loosest, tallestSigned_eq]
    rfl
  constructor
  · obtain ⟨text, e, hparse, hheight⟩ := exists_height (n := maxDepth - 1) (Nat.le_refl _)
    exact ⟨text, e, hparse, hheight.trans hvalue⟩
  · rintro n ⟨text, e, hparse, rfl⟩
    exact le_of_le_of_eq (height_le hparse).1 hvalue

/-! ## The shortest text of a tree that is too high -/

/-- A name with `k` minus signs in front of it and `l` summands behind it. -/
def signedSum (k l : Nat) : Formula := linked .add nameX (negated (.variable nameX) k) l

/-- The text of such a sum. -/
def signedText (k l : Nat) : String :=
  String.ofList (List.replicate k '-' ++ 'x' :: (List.replicate l ['+', 'x']).flatten)

theorem signedText_length (k l : Nat) : (signedText k l).length = k + 1 + 2 * l := by
  rw [signedText, ← String.length_toList, String.toList_ofList]
  simp
  omega

theorem signedText_writes (k l : Nat) : (signedSum k l).Writes (signedText k l) := by
  have hname : (Formula.variable nameX).rank ≤ 1 := Nat.zero_le 1
  have hrank : (negated (.variable nameX) k).rank ≤ 3 := (rank_negated hname k).trans (by decide)
  have hbare : (signedSum k l).bare = (List.replicate k .minus ++ [.name nameX]) ++
      (List.replicate l [Lexeme.operator .add, .name nameX]).flatten := by
    rw [signedSum, bare_linked .add (by decide) hrank, bare_negated hname]
    rfl
  have hsigns : ((List.replicate k Lexeme.minus).map Lexeme.text).flatten = List.replicate k '-' := by
    rw [List.map_replicate]
    exact List.flatten_replicate_singleton
  have hlinks : (((List.replicate l [Lexeme.operator .add, .name nameX]).flatten).map
      Lexeme.text).flatten = (List.replicate l ['+', 'x']).flatten := by
    rw [List.map_flatten, List.map_replicate, List.flatten_flatten, List.map_replicate]
    rfl
  rw [Writes, signedText, String.toList_ofList, hbare]
  convert Spaced.flatten _
  rw [List.map_append, List.map_append, List.flatten_append, List.flatten_append, hlinks, hsigns,
    List.append_assoc]
  rfl

/-- The signs and the summands each fit the depth, while the height is the sum of both. -/
theorem parse_signedText {k l : Nat} (hk : k + 1 ≤ maxDepth) (hl : l + 1 ≤ maxDepth) :
    ∃ e, parse (signedText k l) = .ok e ∧ e.height = k + l := by
  have hname : (Formula.variable nameX).rank ≤ 1 := Nat.zero_le 1
  have hrank := rank_negated hname k
  have hsigns : (negated (.variable nameX) k).needIn 2 ≤ maxDepth := by
    rw [needIn_succ (by omega), needIn_negated]
    show 1 + k ≤ maxDepth
    omega
  have hsum : (signedSum k l).needIn 3 ≤ maxDepth :=
    needIn_linked .add (by decide) rfl (hrank.trans (by decide)) hsigns hl
  have hloosest : (signedSum k l).needIn 6 ≤ maxDepth := by
    have hle : (signedSum k l).rank ≤ 3 := rank_linked .add (hrank.trans (by decide)) l
    rwa [needIn_succ (by omega), needIn_succ (by omega), needIn_succ (by omega)]
  obtain ⟨e, rfl, hparse⟩ := (parse_reaches (signedText_writes k l)).arrives hloosest
  refine ⟨_, hparse, ?_⟩
  rw [height_expr, signedSum, height_linked, height_negated]
  show 0 + k + l = k + l
  omega

/-- **The bound on the depth bounds the height of all trees of texts of up to 259 characters, and of
no longer ones.** -/
theorem shallow_iff_short (n : Nat) :
    (∀ text e, text.length ≤ n → parse text = .ok e → e.height ≤ maxDepth) ↔ n ≤ 259 := by
  constructor
  · intro hall
    by_contra hlong
    obtain ⟨e, hparse, hheight⟩ := parse_signedText (k := 255) (l := 2) (by decide) (by decide)
    have hlength := signedText_length 255 2
    have hdeep : e.height ≤ 256 := hall _ e (by omega) hparse
    omega
  · intro hshort text e hlength hparse
    have hheight : 2 * e.height + 1 ≤ text.length + 255 := (height_le hparse).2
    show e.height ≤ 256
    omega

/-- A name with 255 signs and two summands is read, and its tree is higher than the depth may be. -/
theorem summands_outgrow_depth :
    ∃ e, parse (signedText 255 2) = .ok e ∧ e.height = 257 ∧ maxDepth < 257 := by
  obtain ⟨e, hparse, hheight⟩ := parse_signedText (k := 255) (l := 2) (by decide) (by decide)
  exact ⟨e, hparse, hheight, by decide⟩

end Expr

end VoxelEdit
