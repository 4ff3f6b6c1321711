import VoxelEdit.Proofs.DescentMoves

/-!
# What holds at every moment of a descent

* `Balanced`: the counter of depth is the number of levels that the calls under way have entered; of
  those, no more than the bound are signed formulas past their check. A step keeps it
  (`Move.balanced`), so a run does (`run_balanced`).
* `Nested`: between two signed formulas at most eight other calls wait, so that
  **the stack is bounded, too** (`run_stack_le`).
* `Place.Ahead`: the cursor stays in the text and never goes back (`run_ahead`).
* `work`: each step takes away from the work that is left, of which there is no more than thirty for
  each byte: **the machine stops in time** (`run_done`).
* `Returned`: what a call gives back to the calls that wait, which **each call does** (`run_returned`).
-/

namespace VoxelEdit.Descent

open VoxelEdit.Expr Text

variable {s t : State}

/-! ## The counter of depth -/

/-- The levels that calls have entered and not yet left. -/
def levels (stack : List Frame) : Nat := (stack.map Frame.levels).sum

/-- The signed formulas among calls that are past their check of the depth. -/
def checks (stack : List Frame) : Nat := (stack.map Frame.checks).sum

@[simp] theorem levels_cons (f : Frame) (stack : List Frame) :
    levels (f :: stack) = f.levels + levels stack := by
  simp [levels]

@[simp] theorem checks_cons (f : Frame) (stack : List Frame) :
    checks (f :: stack) = f.checks + checks stack := by
  simp [checks]

/-- Each check is a level. -/
theorem Frame.checks_le (f : Frame) : f.checks ≤ f.levels := by
  cases f <;> simp [Frame.checks, Frame.levels]

theorem checks_le_levels (stack : List Frame) : checks stack ≤ levels stack := by
  induction stack with
  | nil => exact Nat.le_refl _
  | cons f stack ih =>
    rw [checks_cons, levels_cons]
    exact Nat.add_le_add f.checks_le ih

theorem Frame.checks_of_free {f : Frame} (h : f.levels = 0) : f.checks = 0 :=
  Nat.le_zero.1 (h ▸ f.checks_le)

/-- The counter where the machine stands. A chain holds its links. Behind an error it may hold levels
that nobody leaves. -/
def DepthCounts (s : State) : Prop :=
  match s.control with
  | .call _ | .answer _ => s.depth = levels s.stack
  | .loop _ links _ => s.depth = levels s.stack + links
  | .refuse _ | .done _ => checks s.stack ≤ s.depth

/-- The counter is right, and no more signed formulas than the bound are past their check. -/
structure Balanced (s : State) : Prop where
  counts : DepthCounts s
  checks_le : checks s.stack ≤ maxDepth

theorem Balanced.checks_le_depth (h : Balanced s) : (checks s.stack : Int) ≤ s.depth := by
  have hcounts := h.counts
  have hle := checks_le_levels s.stack
  unfold DepthCounts at hcounts
  split at hcounts <;> omega

theorem Balanced.nonneg (h : Balanced s) : 0 ≤ s.depth :=
  Int.le_trans (Int.natCast_nonneg _) h.checks_le_depth

/-- **A step keeps the balance.** -/
theorem Move.balanced (h : Move s t) (hs : Balanced s) : Balanced t := by
  have hlow := hs.checks_le_depth
  obtain ⟨hcounts, hle⟩ := hs
  unfold DepthCounts at hcounts
  cases h with
  | descend called free ahead lower =>
    rw [called] at hcounts
    exact ⟨by simp [DepthCounts, free, hcounts], by simpa [Frame.checks_of_free free] using hle⟩
  | check called room =>
    -- the counter is no less than the checks under way, so there is room for one more of them, too
    rw [called] at hcounts
    refine ⟨?_, ?_⟩
    · simp only [DepthCounts, levels_cons, Frame.levels]
      omega
    · simp only [checks_cons, Frame.checks]
      omega
  | link looped row past room =>
    rw [looped] at hcounts
    refine ⟨?_, by simpa [Frame.checks] using hle⟩
    simp only [DepthCounts, levels_cons, Frame.levels]
    omega
  | close looped ahead =>
    rw [looped] at hcounts
    refine ⟨?_, hle⟩
    simp only [DepthCounts]
    omega
  | leaf called ahead =>
    rw [called] at hcounts
    exact ⟨hcounts, hle⟩
  | turn answered waits row held =>
    rw [answered, waits, levels_cons] at hcounts
    rw [waits, checks_cons] at hle
    refine ⟨?_, by dsimp only; omega⟩
    simp only [DepthCounts]
    omega
  | resume answered waits same free free' row past =>
    rw [answered, waits, levels_cons, free] at hcounts
    rw [waits, checks_cons] at hle
    refine ⟨?_, ?_⟩
    · simp only [DepthCounts, levels_cons, free']
      omega
    · rw [checks_cons, Frame.checks_of_free free']
      omega
  | pass answered waits ahead up =>
    rw [answered, waits, levels_cons] at hcounts
    rw [waits, checks_cons] at hle
    refine ⟨?_, by dsimp only; omega⟩
    simp only [DepthCounts]
    omega
  | fail busy ahead down => exact ⟨Int.le_trans hlow down, hle⟩
  | reject answered waits free ahead =>
    rw [waits, checks_cons] at hle hlow
    refine ⟨?_, by dsimp only; omega⟩
    simp only [DepthCounts]
    omega
  | unwind refused waits up =>
    rw [waits, checks_cons] at hle hlow
    refine ⟨?_, by dsimp only; omega⟩
    simp only [DepthCounts]
    omega
  | stop waits control ahead => exact ⟨hlow, hle⟩
  | rest done => exact ⟨by unfold DepthCounts; exact hcounts, hle⟩

/-! ## The stack -/

/-- How much room for calls a task leaves up to the next signed formula. -/
def Task.room : Task → Nat
  | .row r => r
  | .number => 5
  | .atom => 6
  | .power => 7
  | .signs => 8

/-- So many calls wait at most, for the signed formulas among them, that there is room for a task. -/
def Fits (k : Nat) (stack : List Frame) : Prop := stack.length + k ≤ 9 * checks stack + loosest

/-- There was room for each call under way. -/
def Nested : List Frame → Prop
  | [] => True
  | f :: stack => Fits f.caller.room stack ∧ Nested stack

/-- A call takes one from the room, and a signed formula makes room for nine. -/
theorem Frame.fits {f : Frame} {stack : List Frame} (h : Fits f.caller.room stack) :
    Fits f.awaits.room (f :: stack) := by
  unfold Fits at h ⊢
  rw [checks_cons, List.length_cons]
  cases f <;> simp only [Frame.caller, Frame.awaits, Frame.checks, Task.room, comparison] at h ⊢ <;>
    unfold loosest at * <;> omega

theorem Nested.length_le {stack : List Frame} (h : Nested stack) :
    stack.length ≤ 9 * checks stack + loosest := by
  cases stack with
  | nil => exact Nat.zero_le _
  | cons f stack =>
    have hfits : Fits f.awaits.room (f :: stack) := Frame.fits h.1
    unfold Fits at hfits
    omega

/-- There is room for what is called, and for what goes on in a loop. -/
def HasRoom (s : State) : Prop :=
  match s.control with
  | .call t => Fits t.room s.stack
  | .loop r _ _ => Fits (r + 1) s.stack
  | .answer _ | .refuse _ | .done _ => True

/-- **A step keeps the calls nested.** -/
theorem Move.nested (h : Move s t) (hs : Nested s.stack ∧ HasRoom s) : Nested t.stack ∧ HasRoom t := by
  obtain ⟨hnested, hroom⟩ := hs
  unfold HasRoom at hroom
  -- a call that goes on where another one of the same reader has waited, or where it was called
  have push {f : Frame} {stack : List Frame} {p : Place} {depth : Int} (hf : Fits f.caller.room stack)
      (hstack : Nested stack) :
      Nested (f :: stack) ∧ HasRoom ⟨.call f.awaits, f :: stack, p, depth⟩ :=
    ⟨⟨hf, hstack⟩, Frame.fits hf⟩
  cases h with
  | descend called free ahead lower =>
    rw [called] at hroom
    exact push hroom hnested
  | check called room =>
    rw [called] at hroom
    exact push (f := .checked) hroom hnested
  | @link r links lhs op p looped row past room =>
    rw [looped] at hroom
    exact push (f := .link r (links + 1) op lhs) hroom hnested
  | close looped ahead => exact ⟨hnested, trivial⟩
  | leaf called ahead => exact ⟨hnested, trivial⟩
  | turn answered waits row held =>
    rw [waits] at hnested
    refine ⟨hnested.2, ?_⟩
    have hfits := hnested.1
    rw [row] at hfits
    exact hfits
  | resume answered waits same free free' row past =>
    rw [waits] at hnested
    exact push (same ▸ hnested.1) hnested.2
  | pass answered waits ahead up =>
    rw [waits] at hnested
    exact ⟨hnested.2, trivial⟩
  | fail busy ahead down => exact ⟨hnested, trivial⟩
  | reject answered waits free ahead =>
    rw [waits] at hnested
    exact ⟨hnested.2, trivial⟩
  | unwind refused waits up =>
    rw [waits] at hnested
    exact ⟨hnested.2, trivial⟩
  | stop waits control ahead => exact ⟨hnested, trivial⟩
  | rest done => exact ⟨hnested, hroom⟩

/-! ## The cursor -/

/-- **A step moves the cursor on, if at all.** -/
theorem Move.ahead (h : Move s t) : s.place.Ahead t.place := by
  cases h with
  | descend _ _ ahead _ | close _ ahead | leaf _ ahead | pass _ _ ahead _ | fail _ ahead _
    | reject _ _ _ ahead | stop _ _ ahead => exact ahead
  | link _ _ past _ | resume _ _ _ _ _ _ past => exact past.ahead
  | check | turn | unwind | rest => exact .refl _

/-! ## Work -/

/-- The steps that a call takes at most before it looks at the text, and those to hand on an answer. -/
def Control.work : Control → Nat
  | .call t => 3 * t.height + 3
  | .loop .. => 3
  | .answer _ => 2
  | .refuse _ => 1
  | .done _ => 0

theorem Control.Busy.work {c : Control} (h : c.Busy) : 1 < c.work := by
  cases c with
  | call | loop => simp [Control.work]
  | answer | refuse | done => exact h.elim

/-- The steps that are left at most. -/
def work (s : State) : Nat := 30 * s.place.rest.length + 2 * s.stack.length + s.control.work

/-- **A step takes away from the work**, unless there is none left. -/
theorem Move.work_lt (h : Move s t) (hs : s.control.work ≠ 0) : work t < work s := by
  have hlength := h.ahead.length_le
  have hrow : (Task.row loosest).height = 9 := rfl
  cases h with
  | @descend f p called free ahead lower =>
    simp only [work, called, Control.work, List.length_cons] at hlength ⊢
    rcases lower with hlower | ⟨hlow, hpast⟩
    · omega
    · -- a byte is worth more than all the calls down from the loosest row
      have hlt := hpast.length_lt
      omega
  | check called room =>
    simp only [work, called, Control.work, List.length_cons, Task.height]
    omega
  | link looped row past room =>
    have hlt := past.length_lt
    unfold loosest at row
    simp only [work, looped, Control.work, List.length_cons, Task.height]
    omega
  | close looped ahead =>
    simp only [work, looped, Control.work] at hlength ⊢
    omega
  | leaf called ahead =>
    simp only [work, called, Control.work] at hlength ⊢
    omega
  | turn answered waits row held =>
    simp only [work, answered, waits, Control.work, List.length_cons]
    omega
  | resume answered waits same free free' row past =>
    have hlt := past.length_lt
    simp only [work, answered, waits, Control.work, List.length_cons]
    omega
  | pass answered waits ahead up =>
    simp only [work, answered, waits, Control.work, List.length_cons] at hlength ⊢
    omega
  | fail busy ahead down =>
    have hbusy := busy.work
    have hrefuse (e : EvalError) : (Control.refuse e).work = 1 := rfl
    simp only [work, hrefuse] at hlength ⊢
    omega
  | reject answered waits free ahead =>
    simp only [work, answered, waits, Control.work, List.length_cons] at hlength ⊢
    omega
  | unwind refused waits up =>
    simp only [work, refused, waits, Control.work, List.length_cons]
    omega
  | stop waits control ahead =>
    have hdone (x : Except EvalError Expr) : (Control.done x).work = 0 := rfl
    simp only [work, hdone] at hlength ⊢
    omega
  | rest done => exact absurd (by rw [done]; rfl) hs

theorem exists_done (h : s.control.work = 0) : ∃ x, s.control = .done x := by
  cases hc : s.control with
  | done x => exact ⟨x, rfl⟩
  | call | loop | answer | refuse => simp [hc, Control.work] at h

theorem step_done {x : Except EvalError Expr} (h : s.control = .done x) : step s = s := by
  unfold step
  rw [h]

theorem iterate_done {x : Except EvalError Expr} (h : s.control = .done x) (n : Nat) :
    step^[n] s = s := Function.iterate_fixed (step_done h) n

/-- With as many steps as there is work, the machine is done. -/
theorem done_of_work_le {n : Nat} (h : work s ≤ n) : ∃ x, (step^[n] s).control = .done x := by
  induction n generalizing s with
  | zero =>
    have hwork : s.control.work = 0 := by
      unfold work at h
      omega
    exact exists_done hwork
  | succ n ih =>
    rw [Function.iterate_succ_apply]
    by_cases hwork : s.control.work = 0
    · obtain ⟨x, hx⟩ := exists_done hwork
      rw [step_done hx, iterate_done hx]
      exact ⟨x, hx⟩
    · have hlt := (step_move s).work_lt hwork
      exact ih (by omega)

/-! ## Calls that come back -/

/-- The machine hands an answer or an error to these calls. -/
structure Returned (stack : List Frame) (s : State) : Prop where
  waits : s.stack = stack
  control : (∃ e, s.control = .answer e) ∨ ∃ e, s.control = .refuse e

/-- **A step leaves calls waiting** that it hands nothing to. -/
theorem Move.above {stack : List Frame} (h : Move s t) (hs : stack <:+ s.stack)
    (hgoes : ∀ x, s.control ≠ .done x) (hdeep : ¬ Returned stack s) :
    stack <:+ t.stack ∧ ∀ x, t.control ≠ .done x := by
  -- where the latest call is handed something, it is not the first of these
  have below {f : Frame} {rest : List Frame} (hwaits : s.stack = f :: rest)
      (hcontrol : (∃ e, s.control = .answer e) ∨ ∃ e, s.control = .refuse e) : stack <:+ rest := by
    rw [hwaits] at hs
    rcases List.suffix_cons_iff.1 hs with hsame | hrest
    · exact absurd ⟨hwaits.trans hsame.symm, hcontrol⟩ hdeep
    · exact hrest
  cases h with
  | descend | check | link => exact ⟨hs.trans (List.suffix_cons _ _), nofun⟩
  | close | leaf | fail => exact ⟨hs, nofun⟩
  | turn answered waits row held => exact ⟨below waits (.inl ⟨_, answered⟩), nofun⟩
  | resume answered waits same free free' row past =>
    exact ⟨(below waits (.inl ⟨_, answered⟩)).trans (List.suffix_cons _ _), nofun⟩
  | pass answered waits ahead up => exact ⟨below waits (.inl ⟨_, answered⟩), nofun⟩
  | reject answered waits free ahead => exact ⟨below waits (.inl ⟨_, answered⟩), nofun⟩
  | unwind refused waits up => exact ⟨below waits (.inr ⟨_, refused⟩), nofun⟩
  | stop waits control ahead =>
    rw [waits, List.suffix_nil] at hs
    exact absurd ⟨waits.trans hs.symm, control⟩ hdeep
  | rest done => exact absurd done (hgoes _)

/-- **Each call comes back**, since the machine is not done while it waits. -/
theorem exists_returned {stack : List Frame} (hs : stack <:+ s.stack)
    (hgoes : ∀ x, s.control ≠ .done x) : ∃ n, Returned stack (step^[n] s) := by
  by_contra hnever
  have habove (n : Nat) : stack <:+ (step^[n] s).stack ∧ ∀ x, (step^[n] s).control ≠ .done x := by
    induction n with
    | zero => exact ⟨hs, hgoes⟩
    | succ n ih =>
      rw [Function.iterate_succ_apply']
      exact (step_move _).above ih.1 ih.2 fun hreturned => hnever ⟨n, hreturned⟩
  obtain ⟨x, hx⟩ := done_of_work_le (Nat.le_refl (work s))
  exact (habove _).2 x hx

/-! ## Runs -/

section

variable (text : String) {i j : Nat}

theorem run_succ (n : Nat) : run text (n + 1) = step (run text n) :=
  Function.iterate_succ_apply' step n (start text)

theorem run_add (n i : Nat) : run text (n + i) = step^[n] (run text i) :=
  Function.iterate_add_apply step n i (start text)

/-- **The counter is right at every moment.** -/
theorem run_balanced (n : Nat) : Balanced (run text n) := by
  induction n with
  | zero => exact ⟨rfl, Nat.zero_le _⟩
  | succ n ih =>
    rw [run_succ]
    exact (step_move _).balanced ih

theorem run_nested (n : Nat) : Nested (run text n).stack ∧ HasRoom (run text n) := by
  induction n with
  | zero => exact ⟨trivial, Nat.le_refl _⟩
  | succ n ih =>
    rw [run_succ]
    exact (step_move _).nested ih

/-- **The calls under way are bounded at every moment.** -/
theorem run_stack_le (n : Nat) : (run text n).stack.length ≤ 9 * maxDepth + loosest := by
  have hlength := (run_nested text n).1.length_le
  have hchecks := (run_balanced text n).checks_le
  omega

/-- **Each call is answered or refused later on**, with the calls waiting that waited before it. -/
theorem run_returned {t : Task} (hcall : (run text i).control = .call t) :
    ∃ j, i < j ∧ Returned (run text i).stack (run text j) := by
  have hgoes (x : Except EvalError Expr) : (run text i).control ≠ .done x := by
    rw [hcall]
    exact nofun
  obtain ⟨n, hn⟩ := exists_returned (List.suffix_refl _) hgoes
  have hpos : n ≠ 0 := by
    rintro rfl
    obtain ⟨e, he⟩ | ⟨e, he⟩ := hn.control
    · exact nomatch hcall.symm.trans he
    · exact nomatch hcall.symm.trans he
  exact ⟨n + i, by omega, run_add text n i ▸ hn⟩

/-- **The cursor never goes back.** -/
theorem run_ahead (h : i ≤ j) : (run text i).place.Ahead (run text j).place := by
  induction j, h using Nat.le_induction with
  | base => exact .refl _
  | succ j hij ih =>
    rw [run_succ]
    exact ih.trans (step_move _).ahead

/-- **The cursor stays in the text.** -/
theorem run_place (n : Nat) : (run text n).place.offset ≤ text.utf8ByteSize ∧
    (run text n).place.rest = (utf8 text).drop (run text n).place.offset := by
  obtain ⟨k, hk, hplace⟩ := run_ahead text (Nat.zero_le n)
  have hlength : (utf8 text).length = text.utf8ByteSize := by
    rw [utf8_eq_bytesOf, length_bytesOf, byteLength_toList]
  have hoffset : (run text n).place.offset = k := by
    rw [hplace]
    exact Nat.zero_add k
  rw [hoffset, hplace]
  exact ⟨hlength ▸ hk, rfl⟩

/-- **The machine stops**, after thirty steps for each byte and for the end of the text. -/
theorem run_done {n : Nat} (h : 30 * (text.utf8ByteSize + 1) ≤ n) :
    ∃ x, (run text n).control = .done x := by
  refine done_of_work_le ?_
  have hlength : (utf8 text).length = text.utf8ByteSize := by
    rw [utf8_eq_bytesOf, length_bytesOf, byteLength_toList]
  have hwork : work (start text) = 30 * (text.utf8ByteSize + 1) := by
    rw [← hlength]
    rfl
  omega

end

end VoxelEdit.Descent
