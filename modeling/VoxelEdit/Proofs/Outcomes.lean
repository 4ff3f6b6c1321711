/-!
# Readers that succeed

A reader that may fail is put together from steps and checks. If it succeeds, all of them did.
-/

namespace VoxelEdit

section

variable {ε α β : Type} {x : Except ε α}

/-- What two steps that succeed have done. -/
theorem bind_eq_ok {f : α → Except ε β} {b : β} (h : (x >>= f) = .ok b) :
    ∃ a, x = .ok a ∧ f a = .ok b := by
  cases x with
  | error e => exact nomatch h
  | ok a => exact ⟨a, rfl, h⟩

/-- What is made of an answer. -/
theorem exists_of_map_eq_ok {f : α → β} {b : β} (h : x.map f = .ok b) :
    ∃ a, x = .ok a ∧ b = f a := by
  cases x with
  | error e => exact nomatch h
  | ok a => exact ⟨a, rfl, (Except.ok.inj h).symm⟩

/-- What is behind a check that refuses. -/
theorem of_check {c : Prop} [Decidable c] {e : ε} {f : β → Except ε α} {a : α}
    (h : (if c then throw e >>= f else x) = .ok a) : ¬c ∧ x = .ok a := by
  split at h
  · exact nomatch h
  · rename_i hc
    exact ⟨hc, h⟩

end

end VoxelEdit
