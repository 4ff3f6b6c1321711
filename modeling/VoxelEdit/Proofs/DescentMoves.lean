import VoxelEdit.Proofs.Descent
import VoxelEdit.Proofs.LexemeCursor

/-!
# What a step of the machine can do

* `Place.Ahead`, `Place.Past`: a cursor has stayed or moved on, in the text.
* `Move`: the steps of the machine, told apart by what they do to the calls under way and to the depth.
  `step_move`: **each step is one of these.**
-/

namespace VoxelEdit

open Number Text

/-! ## Cursors that move on -/

namespace Place

/-- `q` is `p` or behind it, and not past the end. -/
def Ahead (p q : Place) : Prop := ∃ n, n ≤ p.rest.length ∧ q = p.skip n

/-- `q` is behind `p`, and not past the end. -/
def Past (p q : Place) : Prop := ∃ n, 0 < n ∧ n ≤ p.rest.length ∧ q = p.skip n

variable {p q r : Place}

@[simp] theorem length_skip (p : Place) (n : Nat) : (p.skip n).rest.length = p.rest.length - n :=
  List.length_drop

theorem skip_skip (p : Place) (m n : Nat) : (p.skip m).skip n = p.skip (m + n) := by
  simp [skip, Nat.add_assoc]

theorem Ahead.refl (p : Place) : p.Ahead p := ⟨0, Nat.zero_le _, rfl⟩

theorem Past.ahead (h : p.Past q) : p.Ahead q := by
  obtain ⟨n, -, hn, rfl⟩ := h
  exact ⟨n, hn, rfl⟩

theorem Ahead.trans (hpq : p.Ahead q) (hqr : q.Ahead r) : p.Ahead r := by
  obtain ⟨m, hm, rfl⟩ := hpq
  obtain ⟨n, hn, rfl⟩ := hqr
  rw [length_skip] at hn
  exact ⟨m + n, by omega, skip_skip p m n⟩

theorem Ahead.past (hpq : p.Ahead q) (hqr : q.Past r) : p.Past r := by
  obtain ⟨m, hm, rfl⟩ := hpq
  obtain ⟨n, hpos, hn, rfl⟩ := hqr
  rw [length_skip] at hn
  exact ⟨m + n, by omega, by omega, skip_skip p m n⟩

theorem Past.trans (hpq : p.Past q) (hqr : q.Ahead r) : p.Past r := by
  obtain ⟨m, hpos, hm, rfl⟩ := hpq
  obtain ⟨n, hn, rfl⟩ := hqr
  rw [length_skip] at hn
  exact ⟨m + n, by omega, by omega, skip_skip p m n⟩

theorem Ahead.length_le (h : p.Ahead q) : q.rest.length ≤ p.rest.length := by
  obtain ⟨n, -, rfl⟩ := h
  rw [length_skip]
  exact Nat.sub_le _ _

theorem Ahead.offset_le (h : p.Ahead q) : p.offset ≤ q.offset := by
  obtain ⟨n, -, rfl⟩ := h
  exact Nat.le_add_right _ _

theorem Past.length_lt (h : p.Past q) : q.rest.length < p.rest.length := by
  obtain ⟨n, hpos, hn, rfl⟩ := h
  rw [length_skip]
  omega

theorem ahead_span (p : Place) (f : Char → Bool) : p.Ahead (p.span f) :=
  ⟨_, (List.takeWhile_sublist _).length_le, rfl⟩

theorem ahead_skipSpace (p : Place) : p.Ahead p.skipSpace := p.ahead_span isSpace

/-- What can be looked at can be passed over. -/
theorem lt_length_of_peek? {n : Nat} {c : Char} (h : p.peek? n = some c) : n < p.rest.length := by
  obtain ⟨b, hb, -⟩ := Option.map_eq_some_iff.1 h
  exact (List.getElem?_eq_some_iff.1 hb).1

theorem past_skip_one {c : Char} (h : p.peek? 0 = some c) : p.Past (p.skip 1) :=
  ⟨1, Nat.one_pos, lt_length_of_peek? h, rfl⟩

theorem past_eat? {token : List Char} (ht : token ≠ []) (h : p.eat? token = some q) : p.Past q := by
  unfold eat? at h
  split at h
  · rename_i hfront
    obtain rfl := Option.some.inj h
    have hlength := (List.isPrefixOf_iff_prefix.1 hfront).length_le
    rw [List.length_map] at hlength
    exact ⟨token.length, List.length_pos_iff.2 ht, hlength, rfl⟩
  · exact nomatch h

/-- An exponent is two bytes at least. -/
theorem ahead_skipNumber (p : Place) : p.Ahead p.skipNumber := by
  have hwhole := p.ahead_span isDigitOrPoint
  unfold skipNumber
  dsimp only
  split
  · rename_i h
    have hmark : ((p.span isDigitOrPoint).peek? 1).isSome = true := by
      cases hnext : (p.span isDigitOrPoint).peek? 1 with
      | none => simp [atExponent, hnext] at h
      | some s => rfl
    obtain ⟨s, hs⟩ := Option.isSome_iff_exists.1 hmark
    have htwo : (p.span isDigitOrPoint).Ahead ((p.span isDigitOrPoint).skip 2) :=
      ⟨2, lt_length_of_peek? hs, rfl⟩
    exact (hwhole.trans htwo).trans (ahead_span _ _)
  · exact hwhole

end Place

namespace Descent

open VoxelEdit.Expr

variable {p q : Place}

/-- A sign is a byte. -/
theorem past_sign {sign : Sign} (h : sign? p = some sign) : p.Past (p.skip 1) := by
  have hbyte : ∃ c, p.peek? 0 = some c := by
    unfold sign? at h
    split at h
    · exact ⟨_, ‹_›⟩
    split at h
    · exact ⟨_, ‹_›⟩
    split at h
    · rename_i hbang
      exact ⟨'!', of_decide_eq_true (Bool.and_eq_true_iff.1 hbang).1⟩
    · exact nomatch h
  obtain ⟨c, hc⟩ := hbyte
  exact Place.past_skip_one hc

/-- An operator is some bytes, and only the rows up to the loosest have any. -/
theorem past_operator {r : Nat} {op : BinaryOp} (h : operator? (operators r) p = some (op, q)) :
    p.Past q ∧ r ≤ loosest := by
  obtain ⟨x, hx, hop⟩ := List.exists_of_findSome?_eq_some h
  obtain ⟨q', heat, heq⟩ := Option.map_eq_some_iff.1 hop
  obtain ⟨-, rfl⟩ := Prod.mk.inj heq
  obtain ⟨hrank, htoken⟩ := mem_operators hx
  obtain ⟨a, cs, hne, -, -⟩ := head_token x.2
  have hlast := x.2.rank_le
  refine ⟨Place.past_eat? ?_ heat, ?_⟩
  · rw [htoken, hne]
    exact List.cons_ne_nil a cs
  · unfold loosest
    omega

/-! ## Moves -/

/-- The levels that a call has entered and not yet left. -/
def Frame.levels : Frame → Nat
  | .checked => 1
  | .link _ links _ _ => links
  | _ => 0

/-- A signed formula past its check counts as one. -/
def Frame.checks : Frame → Nat
  | .checked => 1
  | _ => 0

/-- How many calls it takes at most from a task to one that looks at the text. -/
def Task.height : Task → Nat
  | .number => 0
  | .atom => 1
  | .power => 2
  | .signs => 3
  | .row r => r + 4

theorem row_height_le {r : Nat} (h : r ≤ loosest) :
    (Task.row r).height ≤ (Task.row loosest).height := Nat.add_le_add_right h 4

/-- At work in a reader. -/
def Control.Busy : Control → Prop
  | .call _ | .loop .. => True
  | .answer _ | .refuse _ | .done _ => False

/-- What a step can do. -/
inductive Move (s : State) : State → Prop
  /-- A call of a lower task, or of any behind something that was taken. -/
  | descend {f : Frame} {p : Place} (called : s.control = .call f.caller) (free : f.levels = 0)
      (ahead : s.place.Ahead p) (lower : f.awaits.height < f.caller.height ∨
        f.awaits.height ≤ (Task.row loosest).height ∧ s.place.Past p) :
      Move s ⟨.call f.awaits, f :: s.stack, p, s.depth⟩
  /-- A signed formula, one level deeper. -/
  | check (called : s.control = .call (.row 0)) (room : s.depth + 1 ≤ maxDepth) :
      Move s ⟨.call .signs, .checked :: s.stack, s.place, s.depth + 1⟩
  /-- A link of a chain, one level deeper. -/
  | link {r links : Nat} {lhs : Expr} {op : BinaryOp} {p : Place}
      (looped : s.control = .loop r links lhs) (row : r < loosest) (past : s.place.Past p)
      (room : s.depth + 1 ≤ maxDepth) :
      Move s ⟨.call (.row r), .link r (links + 1) op lhs :: s.stack, p, s.depth + 1⟩
  /-- The end of a chain, which gives its links back. -/
  | close {r links : Nat} {lhs : Expr} {p : Place} (looped : s.control = .loop r links lhs)
      (ahead : s.place.Ahead p) : Move s ⟨.answer lhs, s.stack, p, s.depth - links⟩
  /-- The answer of a call that needs no other. -/
  | leaf {t : Task} {e : Expr} {p : Place} (called : s.control = .call t)
      (ahead : s.place.Ahead p) : Move s ⟨.answer e, s.stack, p, s.depth⟩
  /-- An operand of a chain, with which its row goes on. -/
  | turn {e lhs : Expr} {f : Frame} {stack : List Frame} {r links : Nat}
      (answered : s.control = .answer e) (waits : s.stack = f :: stack)
      (row : f.caller = .row (r + 1)) (held : f.levels = links) :
      Move s ⟨.loop r links lhs, stack, s.place, s.depth⟩
  /-- An answer, behind which the same call goes on to wait for another one. -/
  | resume {e : Expr} {f g : Frame} {stack : List Frame} {p : Place}
      (answered : s.control = .answer e) (waits : s.stack = f :: stack)
      (same : g.caller = f.caller) (free : f.levels = 0) (free' : g.levels = 0)
      (row : g.awaits.height ≤ (Task.row loosest).height) (past : s.place.Past p) :
      Move s ⟨.call g.awaits, g :: stack, p, s.depth⟩
  /-- An answer that is passed on, one level up where that was entered. -/
  | pass {e e' : Expr} {f : Frame} {stack : List Frame} {p : Place} {depth : Int}
      (answered : s.control = .answer e) (waits : s.stack = f :: stack) (ahead : s.place.Ahead p)
      (up : depth = s.depth - f.levels) : Move s ⟨.answer e', stack, p, depth⟩
  /-- An error. It may have come up one level deeper. -/
  | fail {e : EvalError} {p : Place} {depth : Int} (busy : s.control.Busy)
      (ahead : s.place.Ahead p) (down : s.depth ≤ depth) : Move s ⟨.refuse e, s.stack, p, depth⟩
  /-- An answer, behind which the call that waits finds an error. -/
  | reject {e : Expr} {e' : EvalError} {f : Frame} {stack : List Frame} {p : Place}
      (answered : s.control = .answer e) (waits : s.stack = f :: stack) (free : f.levels = 0)
      (ahead : s.place.Ahead p) : Move s ⟨.refuse e', stack, p, s.depth⟩
  /-- An error that is passed on. Only signed formulas go back up. -/
  | unwind {e : EvalError} {f : Frame} {stack : List Frame} {depth : Int}
      (refused : s.control = .refuse e) (waits : s.stack = f :: stack)
      (up : depth = s.depth - f.checks) : Move s ⟨.refuse e, stack, s.place, depth⟩
  /-- The end. -/
  | stop {x : Except EvalError Expr} {p : Place} (waits : s.stack = [])
      (control : (∃ e, s.control = .answer e) ∨ ∃ e, s.control = .refuse e)
      (ahead : s.place.Ahead p) : Move s ⟨.done x, s.stack, p, s.depth⟩
  /-- Nothing more. -/
  | rest {x : Except EvalError Expr} (done : s.control = .done x) : Move s s

section

variable {s : State}

theorem named_move (hcall : s.control = .call .atom) (h : s.place.Ahead p) : Move s (s.named p) := by
  have hname : s.place.Ahead (p.span isWord).skipSpace :=
    (h.trans (p.ahead_span isWord)).trans (Place.ahead_skipSpace _)
  unfold State.named
  dsimp only
  split
  · exact .leaf hcall hname
  · rename_i q hopen
    have hpast := (hname.past (Place.past_eat? (by simp) hopen)).trans q.ahead_skipSpace
    split
    · rename_i q' hclose
      exact .leaf hcall (hpast.ahead.past (Place.past_eat? (by simp) hclose)).ahead
    · exact .descend hcall rfl hpast.ahead (.inr ⟨Nat.le_refl _, hpast⟩)

theorem called_move {t : Task} (hcall : s.control = .call t) : Move s (s.called t) := by
  have hspace := s.place.ahead_skipSpace
  cases t with
  | row r =>
    cases r with
    | zero =>
      by_cases hdeep : s.depth + 1 > (maxDepth : Int)
      · rw [State.called, State.enter, if_pos hdeep]
        exact .fail (hcall ▸ trivial) (.refl _) (Int.le_add_one (Int.le_refl _))
      · rw [State.called, State.enter, if_neg hdeep]
        exact .check hcall (Int.not_lt.1 hdeep)
    | succ r => exact .descend hcall rfl (.refl _) (.inl (Nat.lt_succ_self _))
  | signs =>
    rw [State.called]
    split
    · rename_i sign hsign
      exact .descend hcall rfl (hspace.past (past_sign hsign)).ahead
        (.inr ⟨row_height_le (Nat.zero_le _), hspace.past (past_sign hsign)⟩)
    · exact .descend hcall rfl hspace (.inl (by decide))
  | power => exact .descend hcall rfl (.refl _) (.inl (by decide))
  | atom =>
    rw [State.called]
    split
    · exact .fail (hcall ▸ trivial) hspace (Int.le_refl _)
    rename_i c hc
    have hpast := hspace.past (Place.past_skip_one hc)
    split
    · exact .descend hcall rfl hpast.ahead (.inr ⟨Nat.le_refl _, hpast⟩)
    split
    · exact .descend hcall rfl hspace (.inl (by decide))
    split
    · exact named_move hcall hspace
    · exact .fail (hcall ▸ trivial) hspace (Int.le_refl _)
  | number =>
    have hnumber := s.place.ahead_skipNumber
    rw [State.called]
    split
    · exact .leaf hcall hnumber
    · exact .fail (hcall ▸ trivial) hnumber (Int.le_refl _)

theorem looped_move {r links : Nat} {lhs : Expr} (hloop : s.control = .loop r links lhs) :
    Move s (s.looped r links lhs) := by
  have hspace := s.place.ahead_skipSpace
  rw [State.looped]
  split
  · exact .close hloop hspace
  · rename_i op q hop
    obtain ⟨hpast, hrow⟩ := past_operator hop
    have hpast := hspace.past hpast
    by_cases hdeep : s.depth + 1 > (maxDepth : Int)
    · rw [State.enter, if_pos hdeep]
      exact .fail (hloop ▸ trivial) hpast.ahead (Int.le_add_one (Int.le_refl _))
    · rw [State.enter, if_neg hdeep]
      exact .link hloop hrow hpast (Int.not_lt.1 hdeep)

theorem answered_move {e : Expr} {f : Frame} {stack : List Frame} (hanswer : s.control = .answer e)
    (hstack : s.stack = f :: stack) : Move s ({ s with stack }.answered e f) := by
  have hspace := s.place.ahead_skipSpace
  -- where no level was entered, none is left
  have free {f : Frame} (h : f.levels = 0) : s.depth = s.depth - f.levels := by
    rw [h]
    exact (Int.sub_zero _).symm
  cases f with
  | first r =>
    rw [State.answered]
    split
    · rename_i hrow
      dsimp only
      split
      · exact .pass hanswer hstack hspace (free rfl)
      · rename_i op q hop
        exact .resume hanswer hstack (congrArg Task.row hrow.symm) rfl rfl
          (row_height_le (by decide)) (hspace.past (past_operator hop).1)
    · exact .turn hanswer hstack rfl rfl
  | link r links op lhs => exact .turn hanswer hstack rfl rfl
  | compared op lhs => exact .pass hanswer hstack (.refl _) (free rfl)
  | checked => exact .pass hanswer hstack (.refl _) rfl
  | signed sign => exact .pass hanswer hstack (.refl _) (free rfl)
  | unsigned => exact .pass hanswer hstack (.refl _) (free rfl)
  | base =>
    rw [State.answered]
    split
    · exact .pass hanswer hstack hspace (free rfl)
    · rename_i q hq
      exact .resume hanswer hstack rfl rfl rfl (row_height_le (by decide))
        (hspace.past (Place.past_eat? (by simp) hq))
  | exponent base => exact .pass hanswer hstack (.refl _) (free rfl)
  | group =>
    rw [State.answered]
    split
    · exact .reject hanswer hstack rfl hspace
    · rename_i q hq
      exact .pass hanswer hstack (hspace.past (Place.past_eat? (by simp) hq)).ahead (free rfl)
  | argument name args =>
    rw [State.answered]
    split
    · rename_i q hq
      exact .pass hanswer hstack (hspace.past (Place.past_eat? (by simp) hq)).ahead (free rfl)
    split
    · exact .reject hanswer hstack rfl hspace
    · rename_i q hq
      exact .resume hanswer hstack rfl rfl rfl (row_height_le (by decide))
        (hspace.past (Place.past_eat? (by simp) hq))
  | digits => exact .pass hanswer hstack (.refl _) (free rfl)

theorem refused_move {e : EvalError} {f : Frame} {stack : List Frame}
    (hrefuse : s.control = .refuse e) (hstack : s.stack = f :: stack) :
    Move s ({ s with stack }.refused e f) := by
  cases f with
  | checked => exact .unwind hrefuse hstack rfl
  | _ => exact .unwind hrefuse hstack (Int.sub_zero _).symm

/-- **Each step is a move.** -/
theorem step_move (s : State) : Move s (step s) := by
  unfold step
  split
  · rename_i t hcall
    exact called_move hcall
  · rename_i r links lhs hloop
    exact looped_move hloop
  · rename_i e hanswer hstack
    exact .stop hstack (.inl ⟨e, hanswer⟩) s.place.ahead_skipSpace
  · rename_i e f stack hanswer hstack
    exact answered_move hanswer hstack
  · rename_i e hrefuse hstack
    exact .stop hstack (.inr ⟨e, hrefuse⟩) (.refl _)
  · rename_i e f stack hrefuse hstack
    exact refused_move hrefuse hstack
  · rename_i x hdone
    exact .rest hdone

end

end Descent

end VoxelEdit
