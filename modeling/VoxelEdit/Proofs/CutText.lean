import Mathlib.Data.List.DropRight
import VoxelEdit.Text.Blank
import VoxelEdit.Text.Class

/-!
# Taking joined text apart

* `cut?_append`, `pieces_intercalate`: what is joined by a mark is cut there again, if the parts
  are free of the mark.
* `trim_padded`: trimming brings back what blanks were put around.
* `trim_around`: around a mark, trimming works on either side alone, and may be done again there
  (`trim_dropWhile`, `trim_rdropWhile`).
-/

namespace VoxelEdit.Text

/-! ## Marks -/

section

variable {mark : Char} {front back p : List Char}

/-- Text is cut at the first mark. -/
theorem cut?_append (h : mark ∉ front) : cut? mark (front ++ mark :: back) = some (front, back) := by
  induction front with
  | nil => exact if_pos rfl
  | cons c front ih =>
    obtain ⟨hc, hfront⟩ := not_or.1 (mt List.mem_cons.2 h)
    rw [List.cons_append, cut?, if_neg (Ne.symm hc), ih hfront]
    rfl

theorem cut?_of_not_mem (h : mark ∉ p) : cut? mark p = none := by
  induction p with
  | nil => rfl
  | cons c p ih =>
    obtain ⟨hc, hp⟩ := not_or.1 (mt List.mem_cons.2 h)
    rw [cut?, if_neg (Ne.symm hc), ih hp]
    rfl

theorem pieces_of_not_mem (h : mark ∉ p) : pieces mark p = [p] := by
  induction p with
  | nil => rfl
  | cons c p ih =>
    obtain ⟨hc, hp⟩ := not_or.1 (mt List.mem_cons.2 h)
    rw [pieces, if_neg (Ne.symm hc), ih hp]

theorem pieces_append (h : mark ∉ p) : pieces mark (p ++ mark :: back) = p :: pieces mark back := by
  induction p with
  | nil => exact if_pos rfl
  | cons c p ih =>
    obtain ⟨hc, hp⟩ := not_or.1 (mt List.mem_cons.2 h)
    rw [List.cons_append, pieces, if_neg (Ne.symm hc), ih hp]

/-- **What is joined by a mark falls into its parts again.** -/
theorem pieces_intercalate {ps : List (List Char)} (hne : ps ≠ []) (hps : ∀ p ∈ ps, mark ∉ p) :
    pieces mark (List.intercalate [mark] ps) = ps := by
  induction ps with
  | nil => exact absurd rfl hne
  | cons p ps ih =>
    have hp : mark ∉ p := hps p List.mem_cons_self
    cases ps with
    | nil =>
      rw [List.intercalate_singleton]
      exact pieces_of_not_mem hp
    | cons q qs =>
      have hqs := ih (List.cons_ne_nil q qs) fun r hr => hps r (List.mem_cons_of_mem p hr)
      rw [List.intercalate_cons_cons, List.append_assoc, List.singleton_append, pieces_append hp, hqs]

theorem not_mem_intercalate {c : Char} {ps : List (List Char)} (hc : c ≠ mark)
    (hps : ∀ p ∈ ps, c ∉ p) : c ∉ List.intercalate [mark] ps := by
  induction ps with
  | nil => exact List.not_mem_nil
  | cons p ps ih =>
    have hp : c ∉ p := hps p List.mem_cons_self
    cases ps with
    | nil => rwa [List.intercalate_singleton]
    | cons q qs =>
      have hqs := ih fun r hr => hps r (List.mem_cons_of_mem p hr)
      rw [List.intercalate_cons_cons, List.append_assoc, List.singleton_append]
      intro hmem
      rcases List.mem_append.1 hmem with h | h
      · exact hp h
      rcases List.mem_cons.1 h with h | h
      · exact hc h
      · exact hqs h

end

/-! ## Blanks -/

/-- A text without blanks at its ends. -/
structure Neat (cs : List Char) : Prop where
  first : ∀ c ∈ cs.head?, isBlank c = false
  last : ∀ c ∈ cs.getLast?, isBlank c = false

section

variable {cs front core back : List Char} {c : Char}

theorem trim_eq (cs : List Char) : trim cs = (cs.dropWhile isBlank).rdropWhile isBlank := rfl

theorem rdropWhile_append (h : ∀ c ∈ back, isBlank c = true) :
    (cs ++ back).rdropWhile isBlank = cs.rdropWhile isBlank := by
  unfold List.rdropWhile
  rw [List.reverse_append, List.dropWhile_append_of_pos fun c hc => h c (List.mem_reverse.1 hc)]

theorem exists_rdropWhile (cs : List Char) :
    ∃ back, cs = cs.rdropWhile isBlank ++ back ∧ ∀ c ∈ back, isBlank c = true := by
  refine ⟨(cs.reverse.takeWhile isBlank).reverse, ?_, fun c hc => ?_⟩
  · rw [List.rdropWhile, ← List.reverse_append, List.takeWhile_append_dropWhile, List.reverse_reverse]
  · exact List.mem_takeWhile_imp (List.mem_reverse.1 hc)

theorem trim_dropWhile (cs : List Char) : trim (cs.dropWhile isBlank) = trim cs := by
  rw [trim_eq, List.dropWhile_idempotent, trim_eq]

theorem trim_rdropWhile (cs : List Char) : trim (cs.rdropWhile isBlank) = trim cs := by
  obtain ⟨back, hcs, hback⟩ := exists_rdropWhile cs
  have hnil : back.dropWhile isBlank = [] := List.dropWhile_eq_nil_iff.2 hback
  conv => rhs; rw [hcs]
  rw [trim_eq, trim_eq, List.dropWhile_append]
  split
  · rename_i hempty
    rw [hnil, List.isEmpty_iff.1 hempty]
  · exact (rdropWhile_append hback).symm

/-- **Trimming around a mark that is not blank.** -/
theorem trim_around (hc : isBlank c = false) :
    trim (front ++ c :: back) = front.dropWhile isBlank ++ c :: back.rdropWhile isBlank := by
  have hstop (xs ys : List Char) :
      (xs ++ c :: ys).dropWhile isBlank = xs.dropWhile isBlank ++ c :: ys := by
    rw [List.dropWhile_append]
    split
    · rename_i hempty
      rw [List.isEmpty_iff.1 hempty, List.dropWhile_cons_of_neg (by rw [hc]; decide)]
      rfl
    · rfl
  rw [trim_eq, hstop, List.rdropWhile, List.reverse_append, List.reverse_cons, List.append_assoc,
    List.singleton_append, hstop, List.reverse_append, List.reverse_cons, List.reverse_reverse,
    List.append_assoc, List.singleton_append]
  rfl

/-- **Blanks around a neat text are trimmed.** -/
theorem trim_padded (hfront : ∀ c ∈ front, isBlank c = true) (hback : ∀ c ∈ back, isBlank c = true)
    (hcore : Neat core) : trim (front ++ (core ++ back)) = core := by
  rw [trim_eq, List.dropWhile_append_of_pos hfront]
  cases core with
  | nil =>
    rw [List.nil_append, List.dropWhile_eq_nil_iff.2 hback]
    rfl
  | cons c core =>
    have hc : isBlank c = false := hcore.first c rfl
    rw [List.cons_append, List.dropWhile_cons_of_neg (by rw [hc]; decide), ← List.cons_append,
      rdropWhile_append hback]
    refine List.rdropWhile_eq_self_iff.2 fun hne => ?_
    have hlast : isBlank ((c :: core).getLast hne) = false :=
      hcore.last _ (List.getLast?_eq_some_getLast hne)
    rw [hlast]
    decide

end

end VoxelEdit.Text
