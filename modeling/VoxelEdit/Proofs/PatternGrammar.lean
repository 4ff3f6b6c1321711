import Mathlib.Data.List.Chain
import VoxelEdit.Pattern.Parser
import VoxelEdit.Proofs.CutText
import VoxelEdit.Proofs.SpacedText
import VoxelEdit.Proofs.WrittenNumbers

/-!
# The grammar of patterns

Patterns as they are written, and what a reader should make of them.

* `Word`: what a pattern is made of, with its characters and the token that it is.
* `TermText`: a weight, or none, and a block, with the words that they are written as and the term
  that they stand for (`TermText.term`).
* `Writes`: a text is a list of terms written down, with commas between them and any gaps between
  words.
* `wordsOf_chain`: no two words stand side by side that could be taken for one (`Follows`).
-/

namespace VoxelEdit.Pattern

open Number Text

/-! ## Parts of words -/

/-- A formula that can be read, with no quote in it. -/
structure Quote where
  chars : List Char
  valid : ∃ e, Expr.parse (String.ofList chars) = .ok e
  unquoted : '\'' ∉ chars

/-- A formula as text. -/
def Quote.text (q : Quote) : String := String.ofList q.chars

/-- Digits with a minus sign or without one, and a point and more digits or not. -/
structure Decimal where
  negative : Bool
  whole : Numeral
  fraction : Option Numeral

/-- What stands behind the whole part. -/
def fractionChars : Option Numeral → List Char
  | none => []
  | some n => '.' :: n.digits

/-- The characters of a decimal. -/
def Decimal.chars (d : Decimal) : List Char :=
  (if d.negative then ['-'] else []) ++ (d.whole.digits ++ fractionChars d.fraction)

/-- A name, and before it another one as its namespace or none. Behind a namespace a name starts
with a letter. -/
inductive NameText where
  | plain (x : Identifier)
  | within (space x : Identifier) (h : x.first.isAlpha = true)

/-- The characters of a name. -/
def NameText.chars : NameText → List Char
  | .plain x => x.chars
  | .within space x _ => space.chars ++ ':' :: x.chars

/-- The name with its namespace, the default one if there is none. -/
def NameText.qualified : NameText → String
  | .plain x => Block.defaultNamespace ++ ":" ++ x.name
  | .within space x _ => space.name ++ ":" ++ x.name

/-- A name that stands for a place of the palette. -/
def NameText.IsPlace (x : NameText) : Prop := ∃ n : Numeral, x.chars = 'r' :: 't' :: n.digits

/-- The name for a place of the palette. -/
def placeName (n : Numeral) : Identifier where
  first := 'r'
  rest := 't' :: n.digits
  starts := by decide
  word := by
    intro c hc
    rcases List.mem_cons.1 hc with rfl | hc
    · decide
    · have hdigit := n.digit c hc
      rw [isDigit_iff] at hdigit
      rw [isWord_iff]
      omega

/-- A text without blanks at its ends, and blanks around it. -/
structure Padded where
  front : List Char
  core : List Char
  back : List Char
  blankFront : ∀ c ∈ front, isBlank c = true
  blankBack : ∀ c ∈ back, isBlank c = true
  neat : Neat core

/-- The characters of a padded text. -/
def Padded.chars (p : Padded) : List Char := p.front ++ (p.core ++ p.back)

/-- A state as it is written: a key, an equals sign and a value. -/
structure StateText where
  key : Padded
  value : Padded
  plain : ∀ c ∈ key.core ++ value.core, c ∉ [',', '=', ']']

/-- The characters of a state. -/
def StateText.chars (s : StateText) : List Char := s.key.chars ++ '=' :: s.value.chars

/-- The key and the value of a state. -/
def StateText.pair (s : StateText) : String × String :=
  (String.ofList s.key.core, String.ofList s.value.core)

/-- The states behind a name, in brackets, if there are any. -/
def statesChars (states : List StateText) : List Char :=
  if states.isEmpty then []
  else '[' :: (List.intercalate [','] (states.map StateText.chars) ++ [']'])

/-! ## Words -/

/-- What a pattern is made of. -/
inductive Word where
  | number (d : Decimal)
  | quoted (q : Quote)
  | runtimeQuoted (q : Quote)
  | name (x : NameText) (states : List StateText)
  | percent
  | colon
  | comma

namespace Word

/-- The characters of a word. -/
def chars : Word → List Char
  | .number d => d.chars
  | .quoted q => '\'' :: (q.chars ++ ['\''])
  | .runtimeQuoted q => 'r' :: 't' :: '\'' :: (q.chars ++ ['\''])
  | .name x states => x.chars ++ statesChars states
  | .percent => ['%']
  | .colon => [':']
  | .comma => [',']

/-- The token that a word is. -/
def token : Word → Token
  | .number d => .number (String.ofList d.chars)
  | .quoted q => .quoted q.text
  | .runtimeQuoted q => .runtimeQuoted q.text
  | .name x states => .name (String.ofList x.chars) (states.map StateText.pair)
  | .percent => .percent
  | .colon => .colon
  | .comma => .comma

/-- The marks between other words. -/
def IsMark : Word → Prop
  | .percent | .colon | .comma => True
  | _ => False

/-- Which word may stand behind another, even with no gap between them: behind a number or a name
only a mark, and behind a colon nothing that starts with a letter. -/
def Follows : Word → Word → Prop
  | .number _, v | .name _ _, v => v.IsMark
  | .colon, .name _ _ | .colon, .runtimeQuoted _ => False
  | _, _ => True

end Word

/-! ## Terms -/

/-- A weight as it is written, or none. -/
inductive WeightText where
  | absent
  | amount (whole : Numeral) (fraction : Option Numeral)
  | formula (q : Quote)

/-- The double nearest to a decimal without a sign. -/
def decimalValue (whole : Numeral) : Option Numeral → Float
  | none => whole.value
  | some n => unsignedValue (digitsValue (whole.digits ++ n.digits)) (-n.digits.length)

namespace WeightText

/-- The words of a weight. -/
def words : WeightText → List Word
  | .absent => []
  | .amount whole fraction => [.number ⟨false, whole, fraction⟩, .percent]
  | .formula q => [.quoted q, .percent]

/-- The weight that is meant, one if there is none. -/
def weight : WeightText → Weight
  | .absent => .constant 1.0
  | .amount whole fraction => .constant (decimalValue whole fraction)
  | .formula q => .formula q.text

end WeightText

/-- A data value as it is written, or none. -/
inductive DataText where
  | absent
  | value (n : Numeral) (h : digitsValue n.digits ≤ maxWord16)
  | formula (q : Quote)

namespace DataText

/-- The words of a data value. -/
def words : DataText → List Word
  | .absent => []
  | .value n _ => [.colon, .number ⟨false, n, none⟩]
  | .formula q => [.colon, .quoted q]

/-- The data value that is meant. -/
def spec : DataText → DataSpec
  | .absent => .any
  | .value n _ => .value (digitsValue n.digits).toUInt16
  | .formula q => .formula q.text

end DataText

/-- A block as it is written: by its name, by an old number or a formula for one, or by a place of
the palette or a formula for one. -/
inductive BlockText where
  | named (x : NameText) (h : ¬ x.IsPlace) (states : List StateText) (data : DataText)
  | legacy (negative : Bool) (n : Numeral) (lo : minInt32 ≤ signedValue negative n.digits)
      (hi : signedValue negative n.digits ≤ maxInt32) (data : DataText)
  | legacyFormula (q : Quote) (data : DataText)
  | place (n : Numeral) (h : digitsValue n.digits ≤ maxWord32)
  | placeFormula (q : Quote)

namespace BlockText

/-- The words of a block. -/
def words : BlockText → List Word
  | .named x _ states data => .name x states :: data.words
  | .legacy negative n _ _ data => .number ⟨negative, n, none⟩ :: data.words
  | .legacyFormula q data => .quoted q :: data.words
  | .place n _ => [.name (.plain (placeName n)) []]
  | .placeFormula q => [.runtimeQuoted q]

/-- The descriptor that is meant: names have a namespace, and states are sorted. -/
def descriptor : BlockText → Descriptor
  | .named x _ states data =>
    .named ⟨x.qualified, 0, (states.map StateText.pair).mergeSort Block.propertyLe⟩ data.spec
  | .legacy negative n _ _ data => .legacy (signedValue negative n.digits) data.spec
  | .legacyFormula q data => .legacyFormula q.text data.spec
  | .place n _ => .runtime (digitsValue n.digits)
  | .placeFormula q => .runtimeFormula q.text

end BlockText

/-- A term as it is written. -/
structure TermText where
  weight : WeightText
  block : BlockText

namespace TermText

/-- The words of a term. -/
def words (t : TermText) : List Word := t.weight.words ++ t.block.words

/-- The term that is meant. -/
def term (t : TermText) : Term := ⟨t.weight.weight, t.block.descriptor⟩

end TermText

/-- The words of terms, with commas between them. -/
def wordsOf (ts : List TermText) : List Word := List.intercalate [.comma] (ts.map TermText.words)

/-- What may stand between words. -/
def isGap (c : Char) : Bool := c = ' ' || c = '\t' || c = '\n' || c = '\r'

/-- A text is a list of terms written down, with any gaps between the words. -/
def Writes (ts : List TermText) (text : String) : Prop :=
  Spaced isGap ((wordsOf ts).map Word.chars) text.toList

/-! ## Words side by side -/

/-- Behind a term there is nothing or a comma. -/
def Ends (ws : List Word) : Prop := ws = [] ∨ ∃ vs, ws = .comma :: vs

theorem Ends.isMark {ws : List Word} (h : Ends ws) : ∀ v ∈ ws.head?, v.IsMark := by
  rcases h with rfl | ⟨vs, rfl⟩
  · exact nofun
  · rintro v ⟨⟩
    trivial

namespace Word

/-- A mark may stand behind any word. -/
theorem follows_mark (w : Word) {v : Word} (hv : v.IsMark) : w.Follows v := by
  cases w with
  | number d => exact hv
  | name x states => exact hv
  | colon =>
    cases v with
    | percent | colon | comma => trivial
    | number | quoted | runtimeQuoted | name => exact hv.elim
  | quoted | runtimeQuoted | percent | comma => trivial

end Word

section

variable {ws : List Word}

theorem DataText.chain (d : DataText) (w : Word) (hws : ws.IsChain Word.Follows) (hends : Ends ws) :
    (w :: (d.words ++ ws)).IsChain Word.Follows := by
  have hbefore (v : Word) : (v :: ws).IsChain Word.Follows :=
    List.isChain_cons.2 ⟨fun u hu => v.follows_mark (hends.isMark u hu), hws⟩
  cases d with
  | absent => exact hbefore w
  | value n h => exact .cons_cons (w.follows_mark trivial) (.cons_cons trivial (hbefore _))
  | formula q => exact .cons_cons (w.follows_mark trivial) (.cons_cons trivial (hbefore _))

theorem BlockText.chain (b : BlockText) (hws : ws.IsChain Word.Follows) (hends : Ends ws) :
    (b.words ++ ws).IsChain Word.Follows := by
  cases b with
  | named x h states data => exact data.chain _ hws hends
  | legacy negative n lo hi data => exact data.chain _ hws hends
  | legacyFormula q data => exact data.chain _ hws hends
  | place n h => exact DataText.absent.chain _ hws hends
  | placeFormula q => exact DataText.absent.chain _ hws hends

theorem TermText.chain (t : TermText) (hws : ws.IsChain Word.Follows) (hends : Ends ws) :
    (t.words ++ ws).IsChain Word.Follows := by
  have hblock := t.block.chain hws hends
  have hpercent : (Word.percent :: (t.block.words ++ ws)).IsChain Word.Follows :=
    List.isChain_cons.2 ⟨fun _ _ => trivial, hblock⟩
  obtain ⟨weight, block⟩ := t
  cases weight with
  | absent => exact hblock
  | amount whole fraction => exact .cons_cons trivial hpercent
  | formula q => exact .cons_cons trivial hpercent

/-- Terms one by one: the words of the first one, and behind a comma those of the others. -/
theorem wordsOf_cons_cons (t u : TermText) (ts : List TermText) :
    wordsOf (t :: u :: ts) = t.words ++ .comma :: wordsOf (u :: ts) := by
  unfold wordsOf
  rw [List.map_cons, List.map_cons, List.intercalate_cons_cons, List.append_assoc]
  rfl

theorem wordsOf_singleton (t : TermText) : wordsOf [t] = t.words := List.intercalate_singleton

/-- **No two words of a pattern could be taken for one.** -/
theorem wordsOf_chain (ts : List TermText) : (wordsOf ts).IsChain Word.Follows := by
  induction ts with
  | nil => exact .nil
  | cons t ts ih =>
    cases ts with
    | nil =>
      rw [wordsOf_singleton, ← List.append_nil t.words]
      exact t.chain .nil (.inl rfl)
    | cons u ts =>
      rw [wordsOf_cons_cons]
      exact t.chain (List.isChain_cons.2 ⟨fun _ _ => trivial, ih⟩) (.inr ⟨_, rfl⟩)

end

end VoxelEdit.Pattern
