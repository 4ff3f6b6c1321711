import Mathlib
import VoxelEdit.Proofs.DescentBounds
import VoxelEdit.Proofs.DescentSteps

/-!
# The machine reads what the readers read

* `Gives`: called at a cursor, whatever calls wait, the machine comes to the answer or to the error of
  a reader, and stands where the reader does. An answer is at the depth of the call.
* `follows`: **the machine does what the readers do**, by induction on the characters to come.
* `recursion_bounded`: **reading a formula ends in time, with bounded recursion and a counter of depth
  that is always right.**
-/

namespace VoxelEdit.Descent

open VoxelEdit.Expr Number Text

variable {s t u : State} {stack : List Frame} {c : Cursor} {depth : Nat}

/-! ## Running on -/

/-- The machine comes to stand in a state. -/
def Leads (s t : State) : Prop := ∃ n, step^[n] s = t

theorem Leads.refl (s : State) : Leads s s := ⟨0, rfl⟩

theorem Leads.trans (hst : Leads s t) (htu : Leads t u) : Leads s u := by
  obtain ⟨m, rfl⟩ := hst
  obtain ⟨n, rfl⟩ := htu
  exact ⟨n + m, Function.iterate_add_apply step n m s⟩

theorem Leads.step (h : step s = t) : Leads s t := ⟨1, h⟩

/-- The machine does what a reader does: it comes to the same answer, for the calls that wait, with its
cursor at the same place and at the depth that is said, or to the same error. -/
def Gives (s : State) (stack : List Frame) (depth : Nat) : Except EvalError (Expr × Cursor) → Prop
  | .ok (e, c) => c.depth = depth ∧ Leads s (stand (.answer e) stack c)
  | .error e => ∃ p d, Leads s ⟨.refuse e, stack, p, d⟩

namespace Gives

variable {x : Except EvalError (Expr × Cursor)} {f : Frame} {inner : Nat}

theorem of_leads (h : Leads s t) (ht : Gives t stack depth x) : Gives s stack depth x := by
  cases x with
  | ok x => exact ⟨ht.1, h.trans ht.2⟩
  | error e =>
    obtain ⟨p, d, ht⟩ := ht
    exact ⟨p, d, h.trans ht⟩

theorem of_step (h : Descent.step s = t) (ht : Gives t stack depth x) : Gives s stack depth x :=
  of_leads (.step h) ht

theorem answer (e : Expr) (c : Cursor) : Gives (stand (.answer e) stack c) stack c.depth (.ok (e, c)) :=
  ⟨rfl, .refl _⟩

theorem refuse (e : EvalError) (p : Place) (d : Int) :
    Gives ⟨.refuse e, stack, p, d⟩ stack depth (.error e) := ⟨p, d, .refl _⟩

/-- An error is passed on by the call that waits, and an answer is used by it. -/
theorem bind {y : Expr × Cursor → Except EvalError (Expr × Cursor)}
    (hx : Gives s (f :: stack) inner x)
    (hy : ∀ e c, x = .ok (e, c) → c.depth = inner →
      Gives (stand (.answer e) (f :: stack) c) stack depth (y (e, c))) :
    Gives s stack depth (x >>= y) := by
  cases x with
  | ok x =>
    obtain ⟨hdepth, hleads⟩ := hx
    exact of_leads hleads (hy x.1 x.2 rfl hdepth)
  | error e =>
    obtain ⟨p, d, hleads⟩ := hx
    have hpass : ∃ d', Descent.step ⟨.refuse e, f :: stack, p, d⟩ = ⟨.refuse e, stack, p, d'⟩ := by
      cases f <;> exact ⟨_, rfl⟩
    obtain ⟨d', hpass⟩ := hpass
    exact ⟨p, d', hleads.trans (Leads.step hpass)⟩

/-- A call that makes something of an answer, where the cursor stands. -/
theorem pass {g : Expr → Expr} (hx : Gives s (f :: stack) depth x)
    (hf : ∀ e c, Descent.step (stand (.answer e) (f :: stack) c) = stand (.answer (g e)) stack c) :
    Gives s stack depth (x.map fun x => (g x.1, x.2)) := by
  have hmap : (x.map fun x => (g x.1, x.2)) = x >>= fun x => .ok (g x.1, x.2) := by cases x <;> rfl
  rw [hmap]
  refine hx.bind fun e c _ hc => ?_
  rw [← hc]
  exact of_step (hf e c) (.answer _ c)

/-- A signed formula is back up one level with its answer. -/
theorem leave (hx : Gives s (.checked :: stack) (depth + 1) x) :
    Gives s stack depth (x.map fun x => (x.1, x.2.leave 1)) := by
  have hmap : (x.map fun x => (x.1, x.2.leave 1)) = x >>= fun x => .ok (x.1, x.2.leave 1) := by
    cases x <;> rfl
  rw [hmap]
  refine hx.bind fun e c _ hc => ?_
  have hlevel : (c.leave 1).depth = depth := by
    rw [Cursor.leave_depth]
    omega
  have hdown : (c.depth : Int) - 1 = ((c.leave 1).depth : Nat) := by
    rw [Cursor.leave_depth]
    omega
  rw [← hlevel]
  exact of_step (congrArg (State.mk (.answer e) stack c.place) hdown) (.answer e (c.leave 1))

/-- A signed formula, from the answer behind its sign on. -/
theorem pass_leave {g : Expr → Expr} (hx : Gives s (f :: .checked :: stack) (depth + 1) x)
    (hf : ∀ e c, Descent.step (stand (.answer e) (f :: .checked :: stack) c) =
      stand (.answer (g e)) (.checked :: stack) c) :
    Gives s stack depth (x.map fun x => (g x.1, x.2.leave 1)) := by
  have hmap : (x.map fun x => (g x.1, x.2.leave 1)) =
      (x.map fun x => (g x.1, x.2)).map fun x => (x.1, x.2.leave 1) := by
    cases x <;> rfl
  rw [hmap]
  exact (hx.pass hf).leave

end Gives

/-! ## Readers -/

/-- What a call makes of its arguments, from the next one on. -/
theorem call_arguments (name : String) (args : List Expr) (c : Cursor) :
    ((answerArgs (arguments c)).map fun x => (Expr.call name (args ++ x.1), x.2)) =
      answer (level loosest c) >>= fun x =>
        match x.2.skip.eat? [')'] with
        | some f => .ok (.call name (args ++ [x.1]), f)
        | none =>
          match x.2.skip.eat? [','] with
          | none => .error (x.2.skip.fault .openArguments)
          | some f => (answerArgs (arguments f)).map fun y => (.call name ((args ++ [x.1]) ++ y.1), y.2) := by
  rw [arguments_eq]
  cases answer (level loosest c) with
  | error e => rfl
  | ok x =>
    show Except.map _ (match x.2.skip.eat? [')'] with
      | some _ => _
      | none => _) = match x.2.skip.eat? [')'] with
      | some _ => _
      | none => _
    cases x.2.skip.eat? [')'] with
    | some f => rfl
    | none =>
      cases x.2.skip.eat? [','] with
      | none => rfl
      | some f =>
        dsimp only
        cases answerArgs (arguments f) with
        | error e => rfl
        | ok y => simp [Except.map]

/-- A number needs no other reader. -/
theorem gives_number (hskip : c.skip = c) {a : Char} {rest : List Char} (hr : c.rest = a :: rest)
    (hpeek : c.place.peek? 0 = some a) (ha : isDigitOrPoint a = true) :
    Gives (stand (.call .atom) stack c) stack c.depth (answer (atom c)) := by
  have hopen : a ≠ '(' := by
    rintro rfl
    exact absurd ha (by decide)
  have hcall := step_atom stack hskip hpeek
  rw [if_neg hopen, if_pos ha] at hcall
  have hnumber := step_number (.digits :: stack) c
  refine .of_step hcall ?_
  rw [hr] at hnumber
  cases hv : double? (numberText (a :: rest)).1 with
  | none =>
    rw [hv] at hnumber
    rw [atom_badNumber hr ha hv]
    exact .of_step hnumber (.of_step rfl (.refuse _ _ _))
  | some v =>
    rw [hv] at hnumber
    rw [atom_number hr ha hv]
    exact .of_step hnumber (.of_step rfl (.answer (.number v) _))

/-- What the machine makes of fewer than `m` characters. -/
structure Follows (m : Nat) : Prop where
  level : ∀ r c stack, c.rest.length < m →
    Gives (stand (.call (.row r)) stack c) stack c.depth (answer (level r c))
  chain : ∀ r links lhs c stack, c.rest.length < m → links ≤ c.depth →
    Gives (stand (.loop r links lhs) stack c) stack (c.depth - links)
      (answer (chain r links lhs c.skip))
  arguments : ∀ name args c stack, c.rest.length < m →
    Gives (stand (.call (.row loosest)) (.argument name args :: stack) c) stack c.depth
      ((answerArgs (arguments c)).map fun x => (.call name (args ++ x.1), x.2))

section

variable {m : Nat} {a : Char} {rest : List Char} (ih : Follows m)
include ih

/-! ### Atoms -/

/-- What stands in parentheses. -/
theorem Follows.group (hm : c.rest.length ≤ m) (hskip : c.skip = c) (hr : c.rest = '(' :: rest)
    (hpeek : c.place.peek? 0 = some '(') :
    Gives (stand (.call .atom) stack c) stack c.depth (answer (Expr.atom c)) := by
  have hcall := step_atom stack hskip hpeek
  rw [if_pos rfl, ← Cursor.place_advance_one hr (by decide)] at hcall
  rw [atom_opening hr]
  have hshorter : rest.length < c.rest.length := by
    rw [hr]
    exact Nat.lt_succ_self _
  have hinner := ih.level loosest (c.advance ['('] rest) (.group :: stack)
    (by dsimp only [Cursor.advance]; omega)
  refine .of_step hcall (hinner.bind fun e d _ hd => ?_)
  have hclose := step_group e stack d
  dsimp only
  cases heat : d.skip.eat? [')'] with
  | none =>
    rw [heat] at hclose
    exact .of_step hclose (.refuse _ _ _)
  | some f =>
    rw [heat] at hclose
    have hf : f.depth = c.depth := (Cursor.eat?_skip_depth heat).trans hd
    rw [← hf]
    exact .of_step hclose (.answer e f)

/-- A call, from its first argument on. -/
theorem Follows.name (hm : c.rest.length ≤ m) (hskip : c.skip = c) (hr : c.rest = a :: rest)
    (hpeek : c.place.peek? 0 = some a) (ha : (a.isAlpha || a = '_') = true) :
    Gives (stand (.call .atom) stack c) stack c.depth (answer (Expr.atom c)) := by
  have hopen : a ≠ '(' := by
    rintro rfl
    exact absurd ha (by decide)
  have hdigit : ¬ isDigitOrPoint a = true := by
    rw [isDigitOrPoint_iff]
    rw [isNameStart_iff] at ha
    omega
  have hword : isWord a = true := by
    rw [isWord_iff]
    rw [isNameStart_iff] at ha
    omega
  have hcall := step_atom stack hskip hpeek
  rw [if_neg hopen, if_neg hdigit, if_pos ha, named_place hr hword] at hcall
  rw [atom_name hr ha]
  dsimp only at hcall ⊢
  cases hparen : (c.advance (a :: rest.takeWhile isWord) (rest.dropWhile isWord)).skip.eat? ['('] with
  | none =>
    rw [hparen] at hcall
    exact .of_step hcall (.answer _ _)
  | some f =>
    rw [hparen] at hcall
    dsimp only at hcall ⊢
    have hdepth := Cursor.eat?_skip_depth hparen
    have hf : f.depth = c.depth := hdepth
    cases hclose : f.skip.eat? [')'] with
    | some k =>
      rw [hclose] at hcall
      have hk : k.depth = c.depth := (Cursor.eat?_skip_depth hclose).trans hf
      rw [← hk]
      exact .of_step hcall (.answer _ k)
    | none =>
      rw [hclose] at hcall
      have hshorter : f.skip.rest.length < c.rest.length := by
        have heat := Cursor.eat?_length_le hparen
        have hspace := Cursor.skip_length_le (c.advance (a :: rest.takeWhile isWord) (rest.dropWhile isWord))
        have hrest := (List.dropWhile_sublist isWord (l := rest)).length_le
        have hskip := f.skip_length_le
        rw [hr, List.length_cons]
        dsimp only [Cursor.advance] at hspace heat
        omega
      have hargs := ih.arguments (String.ofList (a :: rest.takeWhile isWord)) [] f.skip stack (by omega)
      rw [Cursor.skip_depth, hf] at hargs
      exact .of_step hcall hargs

/-- An atom, whatever its first character is. -/
theorem Follows.atom (hm : c.rest.length ≤ m) (hskip : c.skip = c) :
    Gives (stand (.call .atom) stack c) stack c.depth (answer (Expr.atom c)) := by
  by_cases hnil : c.rest = []
  · have hcall : step (stand (.call .atom) stack c) =
        stand (.refuse (.malformed c.pos .endOfText)) stack c := by
      show (stand (.call .atom) stack c).called .atom = _
      rw [State.called, stand_skipSpace, hskip, Cursor.peek?_nil hnil]
      rfl
    rw [atom_end hnil]
    exact .of_step hcall (.refuse _ _ _)
  obtain ⟨a, rest, hr⟩ := List.exists_cons_of_ne_nil hnil
  obtain ⟨b, hpeek, ⟨rfl, -⟩ | ⟨hbyte, ha⟩⟩ := Cursor.exists_peek? hr
  · by_cases hopen : b = '('
    · subst hopen
      exact ih.group hm hskip hr hpeek
    by_cases hdigit : isDigitOrPoint b = true
    · exact gives_number hskip hr hpeek hdigit
    by_cases hname : (b.isAlpha || b = '_') = true
    · exact ih.name hm hskip hr hpeek hname
    · have hcall := step_atom stack hskip hpeek
      rw [if_neg hopen, if_neg hdigit, if_neg hname] at hcall
      rw [atom_foreign hr hopen (Bool.eq_false_iff.2 hdigit) (Bool.eq_false_iff.2 hname)]
      exact .of_step hcall (.refuse _ _ _)
  · -- no character past the first 128 starts an atom
    have hcall := step_atom stack hskip hpeek
    have hforeign {x : Char} (hx : 128 ≤ x.toNat) :
        x ≠ '(' ∧ isDigitOrPoint x = false ∧ (x.isAlpha || x = '_') = false := by
      refine ⟨ne_of_wide hx (by decide), isDigitOrPoint_wide hx, ?_⟩
      rw [isAlpha_wide hx, Bool.false_or]
      exact decide_eq_false (ne_of_wide hx (by decide))
    obtain ⟨hopen, hdigit, hname⟩ := hforeign hbyte
    rw [if_neg hopen, if_neg (by simp [hdigit]), if_neg (by simp [hname])] at hcall
    obtain ⟨hopen, hdigit, hname⟩ := hforeign ha
    rw [atom_foreign hr hopen hdigit hname]
    exact .of_step hcall (.refuse _ _ _)

/-! ### Powers and signs -/

theorem Follows.power (stack : List Frame) (hm : c.rest.length ≤ m) (hskip : c.skip = c) :
    Gives (stand (.call .power) stack c) stack c.depth (answer (Expr.power c)) := by
  rw [power_eq]
  have hcall : step (stand (.call .power) stack c) = stand (.call .atom) (.base :: stack) c := rfl
  refine .of_step hcall ((ih.atom hm hskip).bind fun e d he hd => ?_)
  have hbase := step_base e stack d
  dsimp only
  cases heat : d.skip.eat? ['^'] with
  | none =>
    rw [heat] at hbase
    rw [← hd]
    exact .of_step hbase (.answer e d.skip)
  | some f =>
    rw [heat] at hbase
    have hf := Cursor.eat?_skip_depth heat
    have hlength := Cursor.eat?_length_le heat
    have hshorter := answer_shorter he
    have hspace := d.skip_length_le
    have hexponent := ih.level 0 f (.exponent e :: stack) (by dsimp only at hshorter; omega)
    rw [level_zero, hf, hd] at hexponent
    exact .of_step hbase (hexponent.pass fun _ _ => rfl)

/-- A signed formula, with all its signs. -/
theorem Follows.signed (hm : c.rest.length ≤ m) :
    Gives (stand (.call (.row 0)) stack c) stack c.depth (answer (Expr.signed c)) := by
  have hcall := step_call_row stack c
  cases hd : c.enter with
  | error e =>
    rw [hd] at hcall
    rw [signed_deep hd]
    exact .of_step hcall (.refuse e _ _)
  | ok d =>
    rw [hd] at hcall
    obtain ⟨-, hdepth⟩ := Cursor.enter_eq_ok hd
    have hrest := Cursor.enter_rest hd
    have hlength := d.skip_length_le
    rw [hrest] at hlength
    have hsigns := step_signs (.checked :: stack) d
    refine .of_step hcall ?_
    rcases signed_cases hd with ⟨sign, a, rest, hsign, hr, ha, hsigned⟩ | ⟨hnone, hsigned⟩
    · rw [hsign] at hsigns
      have hshorter : rest.length < d.skip.rest.length := by
        rw [hr]
        exact Nat.lt_succ_self _
      have hbehind : step (stand (.call .signs) (.checked :: stack) d) =
          stand (.call (.row 0)) (.signed sign :: .checked :: stack) (d.skip.advance [a] rest) := by
        rw [hsigns, ← Cursor.place_advance_one hr ha]
        rfl
      have hmore := ih.level 0 (d.skip.advance [a] rest) (.signed sign :: .checked :: stack)
        (by dsimp only [Cursor.advance]; omega)
      have hdown : (d.skip.advance [a] rest).depth = c.depth + 1 := hdepth
      rw [level_zero, hdown] at hmore
      rw [hsigned]
      exact .of_step hbehind (hmore.pass_leave fun _ _ => rfl)
    · rw [hnone] at hsigns
      have hpower := ih.power (.unsigned :: .checked :: stack) (hlength.trans hm) d.skip_skip
      rw [Cursor.skip_depth, hdepth] at hpower
      rw [hsigned]
      exact .of_step hsigns (hpower.pass_leave fun _ _ => rfl)

/-! ### Rows -/

theorem Follows.chain_le {r links : Nat} {lhs : Expr} (hm : c.rest.length ≤ m)
    (hlinks : links ≤ c.depth) :
    Gives (stand (.loop r links lhs) stack c) stack (c.depth - links)
      (answer (Expr.chain r links lhs c.skip)) := by
  have hskip := c.skip_length_le
  have hstep := step_loop r links lhs stack c
  rw [chain_eq]
  cases hop : nextOperator (operators (r + 1)) c.skip with
  | none =>
    rw [hop] at hstep
    refine .of_step (t := stand (.answer lhs) stack (c.skip.leave links)) ?_ (.answer lhs _)
    rw [hstep]
    simp [stand, Cursor.leave, Cursor.place, hlinks]
  | some w =>
    obtain ⟨op, d⟩ := w
    rw [hop] at hstep
    obtain ⟨hdepth, hlength⟩ := nextOperator_eq_some hop
    dsimp only at hstep ⊢
    cases hd : d.enter with
    | error e =>
      rw [hd] at hstep
      exact .of_step hstep (.refuse e _ _)
    | ok f =>
      rw [hd] at hstep
      obtain ⟨-, hf⟩ := Cursor.enter_eq_ok hd
      have hrest := Cursor.enter_rest hd
      refine .of_step hstep (.bind (ih.level r f _ (by rw [hrest]; omega)) fun e next he hnext => ?_)
      have hturn : step (stand (.answer e) (.link r (links + 1) op lhs :: stack) next) =
          stand (.loop r (links + 1) (.binary op lhs e)) stack next := rfl
      have hshorter := answer_shorter he
      rw [hrest] at hshorter
      have hmore := ih.chain r (links + 1) (.binary op lhs e) next stack (by dsimp only at hshorter; omega)
        (by rw [Cursor.skip_depth] at hdepth; omega)
      have hback : next.depth - (links + 1) = c.depth - links := by
        rw [Cursor.skip_depth] at hdepth
        omega
      rw [hback] at hmore
      exact .of_step hturn hmore

theorem Follows.level_le (hm : c.rest.length ≤ m) (r : Nat) :
    Gives (stand (.call (.row r)) stack c) stack c.depth (answer (Expr.level r c)) := by
  induction r generalizing stack with
  | zero =>
    rw [level_zero]
    exact ih.signed hm
  | succ r hr =>
    have hcall : step (stand (.call (.row (r + 1))) stack c) =
        stand (.call (.row r)) (.first r :: stack) c := rfl
    by_cases hrow : r + 1 = comparison
    · obtain rfl : r = 2 := Nat.succ.inj hrow
      show Gives _ _ _ (answer (Expr.level comparison c))
      rw [level_comparison]
      refine .of_step hcall (hr.bind fun e d he hd => ?_)
      have hnext := step_comparison e stack d
      dsimp only
      cases hop : nextOperator (operators comparison) d.skip with
      | none =>
        rw [hop] at hnext
        rw [← hd]
        exact .of_step hnext (.answer e d.skip)
      | some w =>
        obtain ⟨op, f⟩ := w
        rw [hop] at hnext
        obtain ⟨hdepth, hlength⟩ := nextOperator_eq_some hop
        have hshorter := answer_shorter he
        have hspace := d.skip_length_le
        have hsecond := ih.level 2 f (.compared op e :: stack) (by dsimp only at hshorter; omega)
        rw [hdepth, Cursor.skip_depth, hd] at hsecond
        exact .of_step hnext (hsecond.pass fun _ _ => rfl)
    · rw [level_chain hrow]
      refine .of_step hcall (hr.bind fun e d he hd => ?_)
      have hturn : step (stand (.answer e) (.first r :: stack) d) = stand (.loop r 0 e) stack d :=
        if_neg hrow
      have hshorter := answer_shorter he
      have hmore : Gives (stand (.loop r 0 e) stack d) stack (d.depth - 0)
          (answer (Expr.chain r 0 e d.skip)) :=
        ih.chain_le (by dsimp only at hshorter; omega) (Nat.zero_le _)
      rw [Nat.sub_zero, hd] at hmore
      exact .of_step hturn hmore

theorem Follows.arguments_le (name : String) (args : List Expr) (hm : c.rest.length ≤ m) :
    Gives (stand (.call (.row loosest)) (.argument name args :: stack) c) stack c.depth
      ((answerArgs (Expr.arguments c)).map fun x => (.call name (args ++ x.1), x.2)) := by
  rw [call_arguments]
  refine (ih.level_le hm loosest).bind fun e d he hd => ?_
  have hnext := step_argument name args e stack d
  have hshorter := answer_shorter he
  have hspace := d.skip_length_le
  dsimp only at hshorter ⊢
  cases hclose : d.skip.eat? [')'] with
  | some f =>
    rw [hclose] at hnext
    have hf : f.depth = c.depth := (Cursor.eat?_skip_depth hclose).trans hd
    rw [← hf]
    exact .of_step hnext (.answer _ f)
  | none =>
    rw [hclose] at hnext
    cases hcomma : d.skip.eat? [','] with
    | none =>
      rw [hcomma] at hnext
      exact .of_step hnext (.refuse _ _ _)
    | some f =>
      rw [hcomma] at hnext
      have hf : f.depth = c.depth := (Cursor.eat?_skip_depth hcomma).trans hd
      have hlength := Cursor.eat?_length_le hcomma
      have hmore := ih.arguments name (args ++ [e]) f stack (by omega)
      rw [hf] at hmore
      exact .of_step hnext hmore

end

/-- **The machine does what the readers do**, by induction on the characters to come. -/
theorem follows (m : Nat) : Follows m := by
  induction m with
  | zero => exact ⟨nofun, nofun, nofun⟩
  | succ m ih =>
    exact ⟨fun r c stack hc => ih.level_le (by omega) r,
      fun r links lhs c stack hc hlinks => ih.chain_le (by omega) hlinks,
      fun name args c stack hc => ih.arguments_le name args (by omega)⟩

/-- A row, wherever it is called. -/
theorem gives_level (r : Nat) (c : Cursor) (stack : List Frame) :
    Gives (stand (.call (.row r)) stack c) stack c.depth (answer (level r c)) :=
  (follows _).level r c stack (Nat.lt_succ_self _)

/-! ## Whole texts -/

section

variable (text : String)

theorem start_eq : start text = stand (.call (.row loosest)) [] ⟨text.toList, 0, 0⟩ := by
  rw [start, utf8_eq_bytesOf]
  rfl

/-- The machine comes to what the text reads as. -/
theorem leads_parse : ∃ n, (run text n).control = .done (parse text) := by
  have hgives := gives_level loosest ⟨text.toList, 0, 0⟩ []
  rw [← start_eq] at hgives
  rw [parse_eq]
  cases hread : answer (level loosest ⟨text.toList, 0, 0⟩) with
  | error e =>
    rw [hread] at hgives
    obtain ⟨p, d, n, hn⟩ := hgives
    refine ⟨n + 1, ?_⟩
    have hlast : run text n = ⟨.refuse e, [], p, d⟩ := hn
    rw [run_succ, hlast]
    rfl
  | ok x =>
    rw [hread] at hgives
    obtain ⟨-, n, hn⟩ := hgives
    refine ⟨n + 1, ?_⟩
    have hlast : run text n = stand (.answer x.1) [] x.2 := hn
    rw [run_succ, hlast]
    show ((stand (.answer x.1) [] x.2).finish x.1).control = _
    rw [State.finish, stand_skipSpace, Cursor.isEmpty_place]
    rfl

/-- **The machine is done in time, with what the text reads as.** -/
theorem run_parse {n : Nat} (h : 30 * (text.utf8ByteSize + 1) ≤ n) :
    (run text n).control = .done (parse text) := by
  obtain ⟨x, hx⟩ := run_done text h
  obtain ⟨m, hm⟩ := leads_parse text
  -- it stays where it is done, so it is done in one way only
  have hlater : run text (m + n) = run text n := by
    rw [run_add]
    exact iterate_done hx m
  have hsame : run text (m + n) = run text m := by
    rw [Nat.add_comm, run_add]
    exact iterate_done hm n
  rw [← hlater, hsame, hm]

/-- A call and an answer that find the same calls waiting are at the same depth. -/
theorem depth_restored {i j : Nat} {t : Task} {e : Expr} (hcall : (run text i).control = .call t)
    (hanswer : (run text j).control = .answer e) (hstack : (run text j).stack = (run text i).stack) :
    (run text j).depth = (run text i).depth := by
  have hi := (run_balanced text i).counts
  have hj := (run_balanced text j).counts
  unfold DepthCounts at hi hj
  rw [hcall] at hi
  rw [hanswer] at hj
  rw [hi, hj, hstack]

/-- **Reading a formula is recursion with bounds, and its counter of depth is balanced.** The machine
does from a call what the reader of that row does, whatever calls wait, and its answer is at the depth
of the call. On every text it is done after thirty steps for each byte and for the end, with what the
text reads as. At every moment no more than `maxDepth` signed formulas are past their check, no more
than nine times as many and five calls wait, and nothing was taken from the counter that was not in it.
Each call of any kind gets its answer or an error, with the same calls waiting as before it, and an
answer there is at the depth at which the call was. The cursor is in the text, and it does not go
back. -/
theorem recursion_bounded :
    (∀ r c stack, Gives (stand (.call (.row r)) stack c) stack c.depth (answer (level r c))) ∧
    (∀ n, 30 * (text.utf8ByteSize + 1) ≤ n → (run text n).control = .done (parse text)) ∧
    (∀ n, checks (run text n).stack ≤ maxDepth ∧
      (run text n).stack.length ≤ 9 * maxDepth + 5 ∧ 0 ≤ (run text n).depth) ∧
    (∀ i t, (run text i).control = .call t →
      ∃ j, i < j ∧ Returned (run text i).stack (run text j)) ∧
    (∀ i j t e, (run text i).control = .call t → (run text j).control = .answer e →
      (run text j).stack = (run text i).stack → (run text j).depth = (run text i).depth) ∧
    (∀ n, (run text n).place.offset ≤ text.utf8ByteSize ∧
      (run text n).place.rest = (utf8 text).drop (run text n).place.offset) ∧
    ∀ i j, i ≤ j → (run text i).place.offset ≤ (run text j).place.offset := by
  refine ⟨gives_level, fun n hn => run_parse text hn, fun n => ?_, ?_, ?_, run_place text, ?_⟩
  · have hbalanced := run_balanced text n
    exact ⟨hbalanced.checks_le, run_stack_le text n, hbalanced.nonneg⟩
  · intro i t hcall
    exact run_returned text hcall
  · intro i j t e hcall hanswer hstack
    exact depth_restored text hcall hanswer hstack
  · intro i j hij
    exact (run_ahead text hij).offset_le

end

/-- The parentheses are called for at the depth of two, and their answer is back at it. -/
theorem recursion_bounded_product :
    (run "a-(b*-c)" 300).control = .done (parse "a-(b*-c)") ∧
    parse "a-(b*-c)" =
      .ok (.binary .sub (.variable "a") (.binary .mul (.variable "b") (.neg (.variable "c")))) ∧
    (run "a-(b*-c)" 21).control = .call (.row loosest) ∧ (run "a-(b*-c)" 21).depth = 2 ∧
    (run "a-(b*-c)" 55).control =
      .answer (.binary .mul (.variable "b") (.neg (.variable "c"))) ∧
    (run "a-(b*-c)" 55).stack = (run "a-(b*-c)" 21).stack ∧
    (run "a-(b*-c)" 55).depth = (run "a-(b*-c)" 21).depth ∧
    (run "a-(b*-c)" 21).place.offset ≤ (run "a-(b*-c)" 55).place.offset := by
  obtain ⟨-, hdone, -, -, hdepth, -, hforth⟩ := recursion_bounded "a-(b*-c)"
  have hparse := hdone 300 (by decide)
  have hrun : (run "a-(b*-c)" 300).control =
      .done (.ok (.binary .sub (.variable "a") (.binary .mul (.variable "b") (.neg (.variable "c"))))) := by
    cbv
  have hcall : (run "a-(b*-c)" 21).control = .call (.row loosest) := by cbv
  have hanswer : (run "a-(b*-c)" 55).control =
      .answer (.binary .mul (.variable "b") (.neg (.variable "c"))) := by cbv
  have hstack : (run "a-(b*-c)" 55).stack = (run "a-(b*-c)" 21).stack := by cbv
  exact ⟨hparse, Control.done.inj (hparse.symm.trans hrun), hcall, by decide +kernel, hanswer, hstack,
    hdepth 21 55 _ _ hcall hanswer hstack, hforth 21 55 (by decide)⟩

end VoxelEdit.Descent
