import VoxelEdit.Pattern.Descriptor
import VoxelEdit.Pattern.Token
import VoxelEdit.Proofs.Outcomes
import VoxelEdit.Proofs.SpacedText

/-!
# Text in braces

Two scanners look for the partner of a brace: `Token.braced` reads on to it, and
`Descriptor.compounds` cuts a text at the braces on the outside. Both pass over strings. Here the
texts are described without either.

* `Text.Quoted`: what follows an opening quote, up to the closing one.
* `Text.Parted`: a text with all strings and braces closed, its compounds and what else stands
  there. The scanner's text is one in braces (`Token.braced_ok`), and it is cut into its compounds
  (`Descriptor.compounds_parted`).
* `Text.Parted.spaced_iff`: a text consists of compounds and blanks only if all that stands around
  its compounds is blank.
-/

namespace VoxelEdit

namespace Text

/-- A quote, single or double. -/
def IsQuote (c : Char) : Prop := c = '"' ∨ c = '\''

/-- A brace, opening or closing. -/
def IsBrace (c : Char) : Prop := c = '\x7b' ∨ c = '\x7d'

instance (c : Char) : Decidable (IsQuote c) := inferInstanceAs (Decidable (_ ∨ _))

instance (c : Char) : Decidable (IsBrace c) := inferInstanceAs (Decidable (_ ∨ _))

/-- What follows the opening quote `q`, up to the closing one. A backslash passes over the next
character. -/
inductive Quoted (q : Char) : List Char → Prop
  | close : Quoted q [q]
  | escaped {c : Char} {s : List Char} : Quoted q s → Quoted q ('\\' :: c :: s)
  | plain {c : Char} {s : List Char} : c ≠ q → c ≠ '\\' → Quoted q s → Quoted q (c :: s)

/-- A text in braces. -/
def inBraces (cs : List Char) : List Char := '\x7b' :: (cs ++ ['\x7d'])

/-- A text whose strings and braces are closed, its outermost compounds, and what else stands
there. -/
inductive Parted : List Char → List (List Char) → List Char → Prop
  | nil : Parted [] [] []
  | plain {c : Char} {cs : List Char} {ps : List (List Char)} {stray : List Char} :
      ¬ IsQuote c → ¬ IsBrace c → Parted cs ps stray → Parted (c :: cs) ps (c :: stray)
  | quoted {q : Char} {s cs : List Char} {ps : List (List Char)} {stray : List Char} :
      IsQuote q → Quoted q s → Parted cs ps stray → Parted (q :: (s ++ cs)) ps (q :: (s ++ stray))
  | braced {inner cs : List Char} {qs ps : List (List Char)} {others stray : List Char} :
      Parted inner qs others → Parted cs ps stray →
        Parted (inBraces inner ++ cs) (inBraces inner :: ps) stray

/-- A text whose strings and braces are closed. -/
def Closed (cs : List Char) : Prop := ∃ ps stray, Parted cs ps stray

/-- A closed text in braces. -/
def IsCompound (cs : List Char) : Prop := ∃ inner, Closed inner ∧ cs = inBraces inner

section

variable {cs : List Char} {ps : List (List Char)} {stray : List Char}

theorem IsQuote.ne_backslash {q : Char} (h : IsQuote q) : q ≠ '\\' := by
  rcases h with rfl | rfl <;> decide

theorem IsQuote.of_none (q : Char) (h : none = some q) : IsQuote q := by cases h

/-- Parts are compounds. -/
theorem Parted.compounds (h : Parted cs ps stray) : ∀ p ∈ ps, IsCompound p := by
  induction h with
  | nil => exact List.forall_mem_nil _
  | plain _ _ _ ih | quoted _ _ _ ih => exact ih
  | braced hinner _ _ ih => exact List.forall_mem_cons.2 ⟨⟨_, ⟨_, _, hinner⟩, rfl⟩, ih⟩

/-- No character is lost. -/
theorem Parted.perm (h : Parted cs ps stray) : cs.Perm (ps.flatten ++ stray) := by
  induction h with
  | nil => exact .nil
  | plain _ _ _ ih => exact (ih.cons _).trans List.perm_middle.symm
  | @quoted q s _ _ _ _ _ _ ih =>
    exact (ih.append_left (q :: s)).trans (List.perm_append_comm_assoc _ _ _)
  | braced _ _ _ ih =>
    rw [List.flatten_cons, List.append_assoc]
    exact ih.append_left _

/-- Characters that are neither quotes nor braces stand around the compounds. -/
theorem Parted.of_plain (h : ∀ c ∈ cs, ¬ IsQuote c ∧ ¬ IsBrace c) : Parted cs [] cs := by
  induction cs with
  | nil => exact .nil
  | cons c cs ih =>
    obtain ⟨⟨hquote, hbrace⟩, hcs⟩ := List.forall_mem_cons.1 h
    exact .plain hquote hbrace (ih hcs)

/-- Texts in a row. -/
theorem Parted.append {cs' stray' : List Char} {ps' : List (List Char)} (h : Parted cs ps stray)
    (h' : Parted cs' ps' stray') : Parted (cs ++ cs') (ps ++ ps') (stray ++ stray') := by
  induction h with
  | nil => exact h'
  | plain hquote hbrace _ ih => exact .plain hquote hbrace ih
  | quoted hq hs _ ih =>
    rw [List.cons_append, List.append_assoc, List.cons_append, List.append_assoc]
    exact .quoted hq hs ih
  | braced hinner _ _ ih =>
    rw [List.append_assoc]
    exact .braced hinner ih

/-- Compounds with blanks around them are the compounds of the text, and the blanks are what else
stands there. -/
theorem Parted.of_spaced (hps : ∀ p ∈ ps, IsCompound p) (h : Spaced isBlank ps cs) :
    ∃ stray, Parted cs ps stray ∧ ∀ c ∈ stray, isBlank c = true := by
  have hblanks {gap : List Char} (hgap : ∀ c ∈ gap, isBlank c = true) : Parted gap [] gap := by
    refine .of_plain fun c hc => ⟨?_, ?_⟩ <;> rintro (rfl | rfl) <;>
      exact absurd (hgap _ hc) (by decide)
  induction ps generalizing cs with
  | nil => exact ⟨cs, hblanks h, h⟩
  | cons p ps ih =>
    obtain ⟨gap, rest, rfl, hgap, hrest⟩ := h
    obtain ⟨⟨inner, ⟨qs, others, hinner⟩, rfl⟩, hmore⟩ := List.forall_mem_cons.1 hps
    obtain ⟨stray, hparted, hstray⟩ := ih hmore hrest
    exact ⟨gap ++ stray, (hblanks hgap).append (.braced hinner hparted),
      fun c hc => (List.mem_append.1 hc).elim (hgap c) (hstray c)⟩

/-- Compounds with blanks around them. -/
theorem Parted.spaced (h : Parted cs ps stray) (hstray : ∀ c ∈ stray, isBlank c = true) :
    Spaced isBlank ps cs := by
  induction h with
  | nil => exact fun c hc => absurd hc List.not_mem_nil
  | plain _ _ _ ih =>
    obtain ⟨hc, hstray⟩ := List.forall_mem_cons.1 hstray
    exact (ih hstray).cons_blank hc
  | quoted hq _ _ _ =>
    have hblank := (List.forall_mem_cons.1 hstray).1
    rcases hq with rfl | rfl <;> exact absurd hblank (by decide)
  | @braced inner cs _ _ _ _ _ _ _ ih => exact ⟨[], cs, rfl, fun c hc => absurd hc List.not_mem_nil, ih hstray⟩

end

end Text

/-! ## The scanners -/

namespace Descriptor

open Text

variable {q : Char} {s cs : List Char} {depth : Nat} {current : List Char}

/-- A string goes onto the compound. -/
theorem compounds_quoted (hq : q ≠ '\\') (h : Quoted q s) :
    compounds (s ++ cs) depth (some q) current =
      compounds cs depth none (s.reverse ++ current) := by
  induction h generalizing current with
  | close => simp [compounds, hq]
  | escaped _ ih => simp [compounds, ih]
  | plain hc hescape _ ih => simp [compounds, hc, hescape, ih]

/-- One step outside strings, for each kind of character. -/
theorem compounds_quote (hq : IsQuote q) :
    compounds (q :: cs) depth none current = compounds cs depth (some q) (q :: current) := by
  rcases hq with rfl | rfl <;> simp [compounds]

theorem compounds_plain {c : Char} (hc : ¬ IsQuote c) (hbrace : ¬ IsBrace c) :
    compounds (c :: cs) depth none current = compounds cs depth none (c :: current) := by
  unfold IsQuote at hc
  unfold IsBrace at hbrace
  simp only [not_or] at hc hbrace
  simp [compounds, hc, hbrace]

/-- A closed text inside a compound goes onto it. -/
theorem compounds_inside {ps : List (List Char)} {inner stray : List Char}
    (h : Parted inner ps stray) :
    compounds (inner ++ cs) (depth + 1) none current =
      compounds cs (depth + 1) none (inner.reverse ++ current) := by
  -- a compound inside is read one level deeper, onto what was there before it
  induction h generalizing cs depth current with
  | nil => rfl
  | plain hc hbrace _ ih => simp [compounds_plain hc hbrace, ih]
  | quoted hq hs _ ih =>
    simp [compounds_quote hq, compounds_quoted hq.ne_backslash hs, ih]
  | braced _ _ ihinner ih => simp [inBraces, compounds, ihinner, ih]

/-- A compound is cut off. -/
theorem compounds_inBraces {inner : List Char} (h : Closed inner) :
    compounds (inBraces inner ++ cs) 0 none current = inBraces inner :: compounds cs 0 none [] := by
  obtain ⟨ps, stray, h⟩ := h
  simp [inBraces, compounds, compounds_inside h]

/-- **A closed text is cut into its compounds.** -/
theorem compounds_parted {ps : List (List Char)} {stray : List Char} (h : Parted cs ps stray) :
    compounds cs 0 none current = ps := by
  induction h generalizing current with
  | nil => rfl
  | plain hc hbrace _ ih => rw [compounds_plain hc hbrace, ih]
  | quoted hq hs _ ih => rw [compounds_quote hq, compounds_quoted hq.ne_backslash hs, ih]
  | braced hinner _ _ ih => rw [compounds_inBraces ⟨_, _, hinner⟩, ih]

/-- A compound does not begin with another one. -/
theorem rest_eq_nil {inner inner' rest : List Char} (h : Closed inner) (h' : Closed inner')
    (heq : inBraces inner = inBraces inner' ++ rest) : rest = [] := by
  have hone : compounds (inBraces inner ++ []) 0 none [] = [inBraces inner] := compounds_inBraces h
  rw [List.append_nil] at hone
  rw [heq, compounds_inBraces h', ← heq] at hone
  rw [← (List.cons.inj hone).1] at heq
  exact List.self_eq_append_right.1 heq

end Descriptor

namespace Token

open Text

/-- What closes `n` open braces: closed texts, each with a closing brace behind it. -/
inductive Closes : Nat → List Char → Prop
  | nil : Closes 0 []
  | cons {n : Nat} {cs used : List Char} : Closed cs → Closes n used →
      Closes (n + 1) (cs ++ '\x7d' :: used)

/-- What closes the string with the quote `mark` and `n` braces. -/
def Ends (mark : Option Char) (n : Nat) (used : List Char) : Prop :=
  match mark with
  | none => Closes n used
  | some q => ∃ s rest, Quoted q s ∧ Closes n rest ∧ used = s ++ rest

variable {n : Nat} {used : List Char}

theorem Closes.plain {c : Char} (hc : ¬ IsQuote c) (hbrace : ¬ IsBrace c) (h : Closes (n + 1) used) :
    Closes (n + 1) (c :: used) := by
  cases h with
  | cons hcs hused =>
    obtain ⟨ps, stray, hcs⟩ := hcs
    exact .cons ⟨ps, _, hcs.plain hc hbrace⟩ hused

theorem Closes.quoted {q : Char} {s : List Char} (hq : IsQuote q) (hs : Quoted q s)
    (h : Closes (n + 1) used) : Closes (n + 1) (q :: (s ++ used)) := by
  cases h with
  | cons hcs hused =>
    obtain ⟨ps, stray, hcs⟩ := hcs
    have hclosed := Closes.cons ⟨ps, _, .quoted hq hs hcs⟩ hused
    rwa [List.cons_append, List.append_assoc] at hclosed

theorem Closes.opened (h : Closes (n + 2) used) : Closes (n + 1) ('\x7b' :: used) := by
  cases h with
  | cons hinner h =>
    cases h with
    | cons hcs hused =>
      obtain ⟨qs, others, hinner⟩ := hinner
      obtain ⟨ps, stray, hcs⟩ := hcs
      have hclosed := Closes.cons ⟨_, _, .braced hinner hcs⟩ hused
      simpa [inBraces] using hclosed

/-- A scan of `cs` that stops before `tail` and has read `text`, with what `taken` was before. -/
def Stops (cs tail taken : List Char) (text : String) (mark : Option Char) (n : Nat) : Prop :=
  ∃ used, cs = used ++ tail ∧ text.toList = taken.reverse ++ used ∧ Ends mark n used

theorem Stops.append (front : List Char) {cs tail taken : List Char} {text : String} {mark mark' : Option Char}
    {n n' : Nat} (hends : ∀ used, Ends mark' n' used → Ends mark n (front ++ used))
    (h : Stops cs tail (front.reverse ++ taken) text mark' n') :
    Stops (front ++ cs) tail taken text mark n := by
  obtain ⟨used, rfl, htext, hused⟩ := h
  refine ⟨front ++ used, (List.append_assoc _ _ _).symm, ?_, hends used hused⟩
  rw [htext, List.reverse_append, List.reverse_reverse, List.append_assoc]

/-- **What a scan of braces has read** closes the braces that were open. -/
theorem braced_stops {pos : Nat} {cs : List Char} {braces lists : Nat} {mark : Option Char}
    {taken : List Char} {text : String} {tail : List Char} (hbraces : 1 ≤ braces)
    (hmark : ∀ q, mark = some q → IsQuote q)
    (h : braced pos cs braces lists mark taken = .ok (text, tail)) :
    Stops cs tail taken text mark braces := by
  fun_induction braced pos cs braces lists mark taken with
  | case1 | case5 | case7 => cases h
  | case2 d cs braces lists q taken ih =>
    -- a backslash and what it passes over
    refine Stops.append ['\\', d] (fun used hused => ?_) (ih hbraces hmark h)
    obtain ⟨s, rest, hs, hrest, rfl⟩ := hused
    exact ⟨_, rest, .escaped hs, hrest, rfl⟩
  | case3 c cs braces lists q taken hescape ih =>
    -- the end of the string, or a character of it
    have hq : IsQuote q := hmark q rfl
    split at ih
    · rename_i hc
      subst hc
      rw [if_pos rfl] at h
      have hrest : Stops cs tail (c :: taken) text none braces := ih hbraces IsQuote.of_none h
      refine hrest.append [c] fun used hused => ?_
      exact ⟨[c], used, .close, hused, rfl⟩
    · rename_i hc
      rw [if_neg hc] at h
      have hbackslash : c ≠ '\\' := by
        rintro rfl
        cases cs with
        | nil => cases h
        | cons d cs => exact hescape d cs rfl rfl
      refine .append [c] (fun used hused => ?_) (ih hbraces hmark h)
      obtain ⟨s, rest, hs, hrest, rfl⟩ := hused
      exact ⟨_, rest, .plain hc hbackslash hs, hrest, rfl⟩
  | case4 c cs braces lists taken hquote ih =>
    have hc : IsQuote c := by simpa [IsQuote] using hquote
    refine .append [c] (fun used hused => ?_)
      (ih hbraces (fun q hq => Option.some.inj hq ▸ hc) h)
    obtain ⟨s, rest, hs, hrest, rfl⟩ := hused
    obtain ⟨n, rfl⟩ := Nat.exists_eq_add_of_le' hbraces
    show Closes (n + 1) (c :: (s ++ rest))
    exact hrest.quoted hc hs
  | case6 cs braces lists taken _ _ ih =>
    refine .append ['\x7b'] (fun used hused => ?_) (ih (Nat.le_add_left _ _) IsQuote.of_none h)
    obtain ⟨n, rfl⟩ := Nat.exists_eq_add_of_le' hbraces
    exact Closes.opened hused
  | case8 cs braces lists taken _ _ _ ih | case9 cs braces lists taken _ _ _ ih =>
    refine .append [_] (fun used hused => ?_) (ih hbraces IsQuote.of_none h)
    obtain ⟨n, rfl⟩ := Nat.exists_eq_add_of_le' hbraces
    exact Closes.plain (by decide) (by decide) hused
  | case10 cs braces lists taken hlast =>
    obtain ⟨rfl, rfl⟩ := Prod.mk.inj (Except.ok.inj h)
    obtain rfl : braces = 1 := Nat.le_antisymm hlast hbraces
    exact ⟨['\x7d'], rfl, by simp, .cons ⟨[], [], .nil⟩ .nil⟩
  | case11 cs braces lists taken hlast _ _ _ _ ih =>
    have hmore : 1 ≤ braces - 1 := by omega
    refine .append ['\x7d'] (fun used hused => ?_) (ih hmore IsQuote.of_none h)
    obtain ⟨n, rfl⟩ := Nat.exists_eq_add_of_le' hbraces
    exact .cons ⟨[], [], .nil⟩ hused
  | case12 c cs braces lists taken hquote hopen _ _ hclose ih =>
    refine .append [c] (fun used hused => ?_) (ih hbraces IsQuote.of_none h)
    obtain ⟨n, rfl⟩ := Nat.exists_eq_add_of_le' hbraces
    exact Closes.plain (by simpa [IsQuote] using hquote) (by simp [IsBrace, hopen, hclose]) hused

/-- The text of a tree is a compound. -/
theorem braced_compound {pos : Nat} {cs : List Char} {text : String} {tail : List Char}
    (h : braced pos cs 1 0 none ['\x7b'] = .ok (text, tail)) : IsCompound text.toList := by
  have hstops : Stops cs tail ['\x7b'] text none 1 :=
    braced_stops (Nat.le_refl 1) IsQuote.of_none h
  obtain ⟨used, -, htext, hused⟩ := hstops
  cases hused with
  | cons hinner hrest =>
    cases hrest with
    | nil => exact ⟨_, hinner, htext⟩

section

variable {pos : Nat} {c : Char} {cs tail : List Char} {text : String}

theorem scanName_ne_tree : scanName pos cs ≠ .ok (.tree text, tail) := by
  intro h
  unfold scanName at h
  dsimp only at h
  split at h
  · split at h
    · cases h
    · obtain ⟨states, -, heq⟩ := bind_eq_ok h
      cases heq
  · cases h

theorem scanWord_ne_tree : scanWord pos c cs ≠ .ok (.tree text, tail) := by
  intro h
  unfold scanWord at h
  split at h
  · obtain ⟨x, -, heq⟩ := map_eq_ok h
    cases heq
  · exact scanName_ne_tree h

theorem scanMarked_ne_tree : scanMarked pos c cs ≠ .ok (.tree text, tail) := by
  intro h
  unfold scanMarked at h
  split at h
  · cases h
  · have htoken := (Prod.mk.inj (Except.ok.inj h)).1
    split at htoken <;> cases htoken

theorem scanNumber_ne_tree : scanNumber pos c cs ≠ .ok (.tree text, tail) := by
  intro h
  unfold scanNumber at h
  split at h <;> cases h

theorem scan_tree (h : scan pos c cs = .ok (.tree text, tail)) : IsCompound text.toList := by
  unfold scan at h
  split at h
  · cases h
  split at h
  · cases h
  split at h
  · cases h
  split at h
  · obtain ⟨x, -, heq⟩ := map_eq_ok h
    cases heq
  split at h
  · rename_i hc
    subst hc
    obtain ⟨⟨s, rest⟩, hs, heq⟩ := map_eq_ok h
    cases heq
    exact braced_compound hs
  split at h
  · exact absurd h scanMarked_ne_tree
  split at h
  · exact absurd h scanNumber_ne_tree
  split at h
  · exact absurd h scanWord_ne_tree
  · cases h

end

/-- **Trees among the tokens of a text** are compounds. -/
theorem ofText_trees {text : String} {ts : List Spanned} (h : ofText text = .ok ts) {pos : Nat}
    {tree : String} (hmem : ⟨pos, .tree tree⟩ ∈ ts) : IsCompound tree.toList := by
  unfold ofText at h
  -- the induction is on the scan, so the tokens from any place on
  generalize 0 = start at h
  generalize text.toList = cs at h
  fun_induction listFrom start cs generalizing ts with
  | case1 =>
    cases h
    exact absurd hmem List.not_mem_nil
  | case2 _ _ _ _ ih => exact ih hmem h
  | case3 | case4 => cases h
  | case5 _ _ _ _ token tail hscan _ rest hrest ih =>
    cases h
    rcases List.mem_cons.1 hmem with heq | hmem
    · cases heq
      exact scan_tree hscan
    · exact ih hmem hrest

end Token

end VoxelEdit
