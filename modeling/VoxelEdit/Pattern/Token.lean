import VoxelEdit.Pattern.Error
import VoxelEdit.Text.Blank
import VoxelEdit.Text.Class

/-!
# Tokens of patterns

A pattern's text as a list of tokens with their positions, counted in bytes. Blanks, tabs and
line breaks between tokens are dropped. Braces are kept as they stand up to their partner, and
strings inside them are passed over.

* `Token.scan_length`: a scan hands on a part of its input.
-/

namespace VoxelEdit

open Text

/-- A token. A number stays text until its role is known. -/
inductive Token where
  | number (text : String)
  | quoted (text : String)
  | runtimeQuoted (text : String)
  | name (text : String) (states : List (String × String))
  | tree (text : String)
  | directive (name : String)
  | flag (name : String)
  | percent
  | colon
  | comma
deriving DecidableEq, Repr

/-- A token and the position of its first byte. -/
structure Spanned where
  pos : Nat
  token : Token
deriving DecidableEq, Repr

namespace Token

/-- The deepest nesting of braces and brackets in a tree. -/
def maxNesting : Nat := 64

/-- Reads on inside a tree, onto `taken`, which is reversed: `braces` and `lists` are open, and
`mark` is the quote of the string that is open. A backslash in a string passes over the next
character. -/
def braced (pos : Nat) : (cs : List Char) → (braces lists : Nat) → (mark : Option Char) →
    (taken : List Char) → Except PatternError (String × List Char)
  | [], _, _, _, _ => .error (.openBrace pos)
  | '\\' :: d :: cs, braces, lists, some q, taken =>
    braced pos cs braces lists (some q) (d :: '\\' :: taken)
  | c :: cs, braces, lists, some q, taken =>
    braced pos cs braces lists (if c = q then none else some q) (c :: taken)
  | c :: cs, braces, lists, none, taken =>
    if c = '"' || c = '\'' then braced pos cs braces lists (some c) (c :: taken)
    else if c = '\x7b' then
      if braces + 1 + lists > maxNesting then .error (.badTree pos .tooDeep)
      else braced pos cs (braces + 1) lists none (c :: taken)
    else if c = '[' then
      if braces + (lists + 1) > maxNesting then .error (.badTree pos .tooDeep)
      else braced pos cs braces (lists + 1) none (c :: taken)
    else if c = ']' then braced pos cs braces (lists - 1) none (c :: taken)
    else if c = '\x7d' then
      if braces ≤ 1 then .ok (String.ofList (c :: taken).reverse, cs)
      else braced pos cs (braces - 1) lists none (c :: taken)
    else braced pos cs braces lists none (c :: taken)

/-- The characters of a name and those after it. A colon belongs to a name if a letter
follows. -/
def nameSpan : List Char → List Char × List Char
  | [] => ([], [])
  | c :: cs =>
    let sep := c = ':' && (cs.head?.map Char.isAlpha).getD false
    if isWord c || sep then
      let (front, back) := nameSpan cs
      (c :: front, back)
    else ([], c :: cs)

/-- One `key=value` of a list of states that starts at `pos`. -/
def state (pos : Nat) (piece : List Char) : Except PatternError (String × String) :=
  match cut? '=' piece with
  | some (k, v) => .ok (String.ofList (trim k), String.ofList (trim v))
  | none => .error (.badState pos (String.ofList piece))

/-- The states of a list that starts at `pos`; empty pieces are passed over. -/
def states (pos : Nat) (body : List Char) : Except PatternError (List (String × String)) :=
  (((pieces ',' body).map trim).filter fun p => !p.isEmpty).mapM (state pos)

/-- A name that starts at `pos`, with its states if a bracket follows. -/
def scanName (pos : Nat) (cs : List Char) : Except PatternError (Token × List Char) :=
  let (front, back) := nameSpan cs
  let text := String.ofList front
  match back with
  | '[' :: rest =>
    let start := pos + byteLength front
    match cut? ']' rest with
    | none => .error (.openStates start)
    | some (body, tail) => do return (.name text (← states start body), tail)
  | _ => .ok (.name text [], back)

/-- The text up to the closing quote. -/
def scanQuoted (pos : Nat) (cs : List Char) : Except PatternError (String × List Char) :=
  match cut? '\'' cs with
  | some (body, tail) => .ok (String.ofList body, tail)
  | none => .error (.openQuote pos)

/-- A word after `#` or `@`. -/
def scanMarked (pos : Nat) (c : Char) (cs : List Char) : Except PatternError (Token × List Char) :=
  match cs.takeWhile isWord with
  | [] => .error (.foreignCharacter pos c)
  | w :: word =>
    let text := String.ofList (w :: word)
    .ok (if c = '#' then .directive text else .flag text, cs.dropWhile isWord)

/-- A number that starts with `c`. -/
def scanNumber (pos : Nat) (c : Char) (cs : List Char) : Except PatternError (Token × List Char) :=
  match c, cs.takeWhile isDigitOrPoint with
  | '-', [] => .error (.badNumber pos "-")
  | _, word => .ok (.number (String.ofList (c :: word)), cs.dropWhile isDigitOrPoint)

/-- A name that starts with `c`, or a formula for a place of the palette. -/
def scanWord (pos : Nat) (c : Char) (cs : List Char) : Except PatternError (Token × List Char) :=
  match c, cs with
  | 'r', 't' :: '\'' :: rest => (scanQuoted (pos + 2) rest).map fun (s, tail) => (.runtimeQuoted s, tail)
  | _, _ => scanName pos (c :: cs)

/-- The token at `pos` whose first character is `c`, and what follows it. -/
def scan (pos : Nat) (c : Char) (cs : List Char) : Except PatternError (Token × List Char) :=
  if c = '%' then .ok (.percent, cs)
  else if c = ':' then .ok (.colon, cs)
  else if c = ',' then .ok (.comma, cs)
  else if c = '\'' then (scanQuoted pos cs).map fun (s, tail) => (.quoted s, tail)
  else if c = '\x7b' then (braced pos cs 1 0 none [c]).map fun (s, tail) => (.tree s, tail)
  else if c = '#' || c = '@' then scanMarked pos c cs
  else if c = '-' || c.isDigit then scanNumber pos c cs
  else if c.isAlpha || c = '_' then scanWord pos c cs
  else .error (.foreignCharacter pos c)

theorem braced_length {pos : Nat} {cs : List Char} {braces lists : Nat} {mark : Option Char}
    {taken : List Char} {text : String} {tail : List Char}
    (h : braced pos cs braces lists mark taken = .ok (text, tail)) : tail.length ≤ cs.length := by
  fun_induction braced pos cs braces lists mark taken <;> simp_all <;> omega

theorem nameSpan_length (cs : List Char) :
    (nameSpan cs).1.length + (nameSpan cs).2.length = cs.length := by
  fun_induction nameSpan cs <;> simp_all; omega

theorem nameSpan_cons {c : Char} {cs : List Char} (h : isWord c = true) :
    nameSpan (c :: cs) = (c :: (nameSpan cs).1, (nameSpan cs).2) := by
  simp [nameSpan, h]

theorem scanQuoted_length {pos : Nat} {cs : List Char} {text : String} {tail : List Char}
    (h : scanQuoted pos cs = .ok (text, tail)) : tail.length ≤ cs.length := by
  unfold scanQuoted at h
  split at h
  · rename_i hc
    have := cut?_length hc
    cases h
    omega
  · cases h

theorem scanMarked_length {pos : Nat} {c : Char} {cs : List Char} {t : Token} {tail : List Char}
    (h : scanMarked pos c cs = .ok (t, tail)) : tail.length ≤ cs.length := by
  unfold scanMarked at h
  split at h
  · cases h
  · cases h; exact (List.dropWhile_sublist _).length_le

theorem scanNumber_length {pos : Nat} {c : Char} {cs : List Char} {t : Token} {tail : List Char}
    (h : scanNumber pos c cs = .ok (t, tail)) : tail.length ≤ cs.length := by
  unfold scanNumber at h
  split at h
  · cases h
  · cases h; exact (List.dropWhile_sublist _).length_le

theorem scanName_length {pos : Nat} {c : Char} {cs : List Char} {t : Token} {tail : List Char}
    (hw : isWord c = true) (h : scanName pos (c :: cs) = .ok (t, tail)) :
    tail.length ≤ cs.length := by
  have total := nameSpan_length cs
  unfold scanName at h
  rw [nameSpan_cons hw] at h
  dsimp only at h
  split at h
  · rename_i rest hb
    rw [hb] at total
    split at h
    · cases h
    · rename_i body tail' hc
      have := cut?_length hc
      simp only [bind, Except.bind] at h
      split at h
      · cases h
      · cases h
        simp at total
        omega
  · cases h
    omega

/-- A mapped success comes from a success. -/
theorem map_eq_ok {α β : Type} {x : Except PatternError α} {f : α → β} {b : β}
    (h : x.map f = .ok b) : ∃ a, x = .ok a ∧ f a = b := by
  cases x with
  | error e => cases h
  | ok a => exact ⟨a, rfl, by cases h; rfl⟩

theorem scanWord_length {pos : Nat} {c : Char} {cs : List Char} {t : Token} {tail : List Char}
    (hw : isWord c = true) (h : scanWord pos c cs = .ok (t, tail)) : tail.length ≤ cs.length := by
  unfold scanWord at h
  split at h
  · obtain ⟨⟨s, rest⟩, hq, ht⟩ := map_eq_ok h
    cases ht
    have := scanQuoted_length hq
    simp
    omega
  · exact scanName_length hw h

/-- A scan hands on a part of what follows the token's first character. -/
theorem scan_length {pos : Nat} {c : Char} {cs : List Char} {t : Token} {tail : List Char}
    (h : scan pos c cs = .ok (t, tail)) : tail.length ≤ cs.length := by
  unfold scan at h
  split at h
  · cases h; exact Nat.le_refl _
  split at h
  · cases h; exact Nat.le_refl _
  split at h
  · cases h; exact Nat.le_refl _
  split at h
  · obtain ⟨⟨s, rest⟩, hq, ht⟩ := map_eq_ok h
    cases ht
    exact scanQuoted_length hq
  split at h
  · obtain ⟨⟨s, rest⟩, hq, ht⟩ := map_eq_ok h
    cases ht
    exact braced_length hq
  split at h
  · exact scanMarked_length h
  split at h
  · exact scanNumber_length h
  split at h
  · rename_i hw
    refine scanWord_length ?_ h
    simp only [isWord, Char.isAlphanum, Bool.or_eq_true] at hw ⊢
    exact hw.imp Or.inl id
  · cases h

/-- The tokens from `pos` on. -/
def listFrom (pos : Nat) : List Char → Except PatternError (List Spanned)
  | [] => .ok []
  | c :: cs =>
    if c = ' ' || c = '\t' || c = '\n' || c = '\r' then listFrom (pos + 1) cs
    else
      match h : scan pos c cs with
      | .error e => .error e
      | .ok (token, tail) =>
        have := scan_length h
        match listFrom (pos + (byteLength (c :: cs) - byteLength tail)) tail with
        | .error e => .error e
        | .ok rest => .ok (⟨pos, token⟩ :: rest)
termination_by cs => cs.length

/-- The tokens of a text. -/
def ofText (text : String) : Except PatternError (List Spanned) := listFrom 0 text.toList

end Token

end VoxelEdit
