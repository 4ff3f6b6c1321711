import VoxelEdit.Text.Class

/-!
# Pieces of text with blanks between them

`Spaced blank ps cs`: the text `cs` consists of the pieces `ps` in order, with any blanks before,
between and after them. A reader that drops blanks arrives at the next piece (`Spaced.dropWhile`),
or at the end (`Spaced.dropWhile_nil`).
-/

namespace VoxelEdit.Text

/-- Pieces in a row, with blanks before, between and after them. -/
def Spaced (blank : Char → Bool) : List (List Char) → List Char → Prop
  | [], cs => ∀ c ∈ cs, blank c = true
  | p :: ps, cs => ∃ gap rest, cs = gap ++ (p ++ rest) ∧ (∀ c ∈ gap, blank c = true) ∧
      Spaced blank ps rest

namespace Spaced

variable {blank : Char → Bool}

/-- **Behind the blanks stands the next piece.** -/
theorem dropWhile {c : Char} {p : List Char} {ps : List (List Char)} {cs : List Char}
    (h : Spaced blank ((c :: p) :: ps) cs) (hc : blank c = false) :
    ∃ rest, cs.dropWhile blank = c :: p ++ rest ∧ Spaced blank ps rest := by
  obtain ⟨gap, rest, rfl, hgap, hrest⟩ := h
  refine ⟨rest, ?_, hrest⟩
  rw [List.dropWhile_append_of_pos hgap, List.cons_append, List.dropWhile_cons_of_neg (by rw [hc]; decide)]

/-- Behind the last piece there are only blanks. -/
theorem dropWhile_nil {cs : List Char} (h : Spaced blank [] cs) : cs.dropWhile blank = [] := by
  have hdrop : (cs ++ []).dropWhile blank = [] := List.dropWhile_append_of_pos h
  rwa [List.append_nil] at hdrop

/-- Dropping blanks keeps a text spaced. -/
theorem dropBlanks {ps : List (List Char)} {cs : List Char} (h : Spaced blank ps cs)
    (hps : ∀ p ∈ ps.head?, ∃ c q, p = c :: q ∧ blank c = false) :
    Spaced blank ps (cs.dropWhile blank) := by
  cases ps with
  | nil =>
    rw [dropWhile_nil h]
    exact nofun
  | cons p ps =>
    obtain ⟨c, q, rfl, hc⟩ := hps p rfl
    obtain ⟨rest, hrest, hspaced⟩ := dropWhile h hc
    rw [hrest]
    exact ⟨[], rest, rfl, nofun, hspaced⟩

/-- The character that comes next is blank, or it starts the next piece. -/
theorem head?_cases {ps : List (List Char)} {cs : List Char} (h : Spaced blank ps cs)
    (hps : ∀ p ∈ ps.head?, p ≠ []) {c : Char} (hc : cs.head? = some c) :
    blank c = true ∨ ∃ p, ps.head? = some p ∧ p.head? = some c := by
  cases ps with
  | nil => exact .inl (h c (List.mem_of_mem_head? hc))
  | cons p ps =>
    obtain ⟨gap, rest, rfl, hgap, -⟩ := h
    cases gap with
    | nil =>
      refine .inr ⟨p, rfl, ?_⟩
      obtain ⟨d, q, rfl⟩ := List.exists_cons_of_ne_nil (hps p rfl)
      exact hc
    | cons d gap => exact .inl (Option.some.inj hc ▸ hgap d List.mem_cons_self)

/-- Pieces may stand next to each other. -/
theorem flatten (ps : List (List Char)) : Spaced blank ps ps.flatten := by
  induction ps with
  | nil => exact nofun
  | cons p ps ih => exact ⟨[], ps.flatten, rfl, nofun, ih⟩

/-- One more blank may stand in front. -/
theorem cons_blank {c : Char} {ps : List (List Char)} {cs : List Char} (hc : blank c = true)
    (h : Spaced blank ps cs) : Spaced blank ps (c :: cs) := by
  cases ps with
  | nil => exact List.forall_mem_cons.2 ⟨hc, h⟩
  | cons p ps =>
    obtain ⟨gap, rest, rfl, hgap, hrest⟩ := h
    exact ⟨c :: gap, rest, rfl, List.forall_mem_cons.2 ⟨hc, hgap⟩, hrest⟩

end Spaced

end VoxelEdit.Text
