/-!
# Character classes and cuts

Classes of the characters that formulas, patterns and tag texts are made of, all within ASCII,
and cuts of text at a character.
-/

namespace VoxelEdit.Text

/-- Blank, tab, line feed, form feed and carriage return. -/
def isSpace (c : Char) : Bool :=
  c = ' ' || c = '\t' || c = '\n' || c = '\r' || c.toNat = 12

/-- Digits and points. -/
def isDigitOrPoint (c : Char) : Bool := c.isDigit || c = '.'

/-- Letters, digits and the underscore. -/
def isWord (c : Char) : Bool := c.isAlphanum || c = '_'

/-- What stands before the first `mark` and what after it, if there is one. -/
def cut? (mark : Char) : List Char → Option (List Char × List Char)
  | [] => none
  | c :: cs =>
    if c = mark then some ([], cs)
    else (cut? mark cs).map fun (front, back) => (c :: front, back)

/-- The pieces between the occurrences of `mark`; one more than there are marks. -/
def pieces (mark : Char) : List Char → List (List Char)
  | [] => [[]]
  | c :: cs =>
    if c = mark then [] :: pieces mark cs
    else
      match pieces mark cs with
      | [] => [[c]]
      | p :: ps => (c :: p) :: ps

/-- The value of a hexadecimal digit. -/
def hexDigit? (c : Char) : Option Nat :=
  if c.isDigit then some (c.toNat - '0'.toNat)
  else if 'a' ≤ c && c ≤ 'f' then some (c.toNat - 'a'.toNat + 10)
  else if 'A' ≤ c && c ≤ 'F' then some (c.toNat - 'A'.toNat + 10)
  else none

/-- What follows the first `mark` is shorter than the text. -/
theorem cut?_length {mark : Char} {cs front back : List Char}
    (h : cut? mark cs = some (front, back)) : front.length + back.length + 1 = cs.length := by
  induction cs generalizing front with
  | nil => simp [cut?] at h
  | cons c cs ih =>
    unfold cut? at h
    split at h
    · cases h; simp
    · simp only [Option.map_eq_some_iff, Prod.mk.injEq, Prod.exists] at h
      obtain ⟨f, b, hc, rfl, rfl⟩ := h
      have := ih hc
      simp only [List.length_cons]
      omega

end VoxelEdit.Text
