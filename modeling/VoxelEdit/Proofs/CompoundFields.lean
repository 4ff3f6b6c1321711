import VoxelEdit.Nbt.Tag

/-!
# Compounds as maps

A compound is a list, but its fields are set and read by name. What is read under a name is what
was last set under it (`Fields.get?_set`), whatever the order, and setting keeps the names sorted
(`Fields.Sorted.set`).
-/

namespace VoxelEdit.Nbt.Fields

/-- The names come in order, each once. -/
def Sorted (fields : Fields) : Prop := fields.Pairwise fun a b => a.1 < b.1

variable {fields : Fields} {name : String} {tag : Tag}

/-- A name after all others goes to the end. -/
theorem set_eq_append (h : ∀ x ∈ fields, x.1 < name) :
    fields.set name tag = fields ++ [(name, tag)] := by
  induction fields with
  | nil => rfl
  | cons x fields ih =>
    have hx := h x List.mem_cons_self
    rw [set, if_neg fun he => String.lt_irrefl _ (he ▸ hx), if_neg (String.lt_asymm hx),
      ih fun y hy => h y (List.mem_cons_of_mem x hy), List.cons_append]

theorem mem_set {x : String × Tag} (h : x ∈ fields.set name tag) :
    x = (name, tag) ∨ x ∈ fields := by
  induction fields with
  | nil => exact .inl (List.mem_singleton.1 h)
  | cons y fields ih =>
    rw [set] at h
    split at h
    · rename_i hy
      rw [← hy] at h
      rcases List.mem_cons.1 h with h | h
      · exact .inl h
      · exact .inr (List.mem_cons_of_mem _ h)
    split at h
    · exact List.mem_cons.1 h
    · rcases List.mem_cons.1 h with h | h
      · exact .inr (h ▸ List.mem_cons_self)
      · exact (ih h).imp_right (List.mem_cons_of_mem _)

/-- Setting keeps the names sorted. -/
theorem Sorted.set (hs : fields.Sorted) (name : String) (tag : Tag) :
    (fields.set name tag).Sorted := by
  induction fields with
  | nil => exact List.pairwise_singleton _ _
  | cons y fields ih =>
    obtain ⟨hy, hfields⟩ := List.pairwise_cons.1 hs
    rw [Fields.set]
    split
    · exact List.pairwise_cons.2 ⟨hy, hfields⟩
    split
    · rename_i hlt
      refine List.pairwise_cons.2 ⟨fun x hx => ?_, hs⟩
      rcases List.mem_cons.1 hx with rfl | hx
      · exact hlt
      · exact String.lt_trans hlt (hy x hx)
    · rename_i hne hle
      refine List.pairwise_cons.2 ⟨fun x hx => ?_, ih hfields⟩
      rcases mem_set hx with rfl | hx
      · exact Std.lt_of_le_of_ne hle fun h => hne h.symm
      · exact hy x hx

theorem get?_cons (k : String) (x : String × Tag) :
    get? (x :: fields) k = if k = x.1 then some x.2 else fields.get? k := by
  unfold get?
  rw [List.lookup_cons]
  by_cases hk : k = x.1
  · rw [if_pos hk, beq_iff_eq.2 hk]
  · rw [if_neg hk, beq_eq_false_iff_ne.2 hk]

/-- **What is read is what was last set.** -/
theorem get?_set (k : String) :
    (fields.set name tag).get? k = if k = name then some tag else fields.get? k := by
  induction fields with
  | nil => exact get?_cons k (name, tag)
  | cons y fields ih =>
    rw [set]
    split
    · rename_i hy
      rw [get?_cons, get?_cons, hy]
      by_cases hk : k = y.1
      · rw [if_pos hk, if_pos hk]
      · rw [if_neg hk, if_neg hk, if_neg hk]
    split
    · exact get?_cons k (name, tag)
    · rename_i hne _
      rw [get?_cons, get?_cons, ih]
      by_cases hk : k = y.1
      · rw [if_pos hk, if_neg fun h => hne (h.symm.trans hk), if_pos hk]
      · rw [if_neg hk, if_neg hk]

/-! ## Compounds of lists -/

theorem sorted_foldl {l : List (String × Tag)} (hs : fields.Sorted) :
    (l.foldl (fun fs x => set fs x.1 x.2) fields).Sorted := by
  induction l generalizing fields with
  | nil => exact hs
  | cons x l ih => exact ih (hs.set _ _)

theorem sorted_ofList (l : List (String × Tag)) : (ofList l).Sorted := sorted_foldl .nil

theorem mem_foldl {l : List (String × Tag)} {x : String × Tag}
    (h : x ∈ l.foldl (fun fs x => set fs x.1 x.2) fields) : x ∈ l ∨ x ∈ fields := by
  induction l generalizing fields with
  | nil => exact .inr h
  | cons y l ih =>
    rcases ih h with h | h
    · exact .inl (List.mem_cons_of_mem _ h)
    · rcases mem_set h with h | h
      · exact .inl (h ▸ List.mem_cons_self)
      · exact .inr h

theorem mem_ofList {l : List (String × Tag)} {x : String × Tag} (h : x ∈ ofList l) : x ∈ l :=
  (mem_foldl h).resolve_right (List.not_mem_nil)

theorem get?_foldl (l : List (String × Tag)) (k : String) :
    (l.foldl (fun fs x => set fs x.1 x.2) fields).get? k =
      (l.reverse.lookup k).or (fields.get? k) := by
  induction l generalizing fields with
  | nil => rfl
  | cons x l ih =>
    have hx : [x].lookup k = if k = x.1 then some x.2 else none := get?_cons k x
    rw [List.foldl_cons, ih, get?_set, List.reverse_cons, List.lookup_append, Option.or_assoc, hx]
    by_cases hk : k = x.1
    · rw [if_pos hk, if_pos hk]
      rfl
    · rw [if_neg hk, if_neg hk]
      rfl

/-- **A compound of a list** has, under each name, the last field of that name. -/
theorem get?_ofList (l : List (String × Tag)) (k : String) :
    (ofList l).get? k = l.reverse.lookup k := by
  unfold ofList
  rw [get?_foldl]
  exact Option.or_none

/-- Nothing is read under a name that was not set. -/
theorem get?_ofList_of_notMem {l : List (String × Tag)} {k : String} (h : k ∉ l.map Prod.fst) :
    (ofList l).get? k = none := by
  rw [get?_ofList, List.lookup_eq_none_iff]
  intro x hx
  rw [bne_iff_ne]
  rintro rfl
  exact h (List.mem_map_of_mem (List.mem_reverse.1 hx))

/-- Names that are all different keep what was set under each. -/
theorem get?_ofList_of_mem {l : List (String × Tag)} (hl : (l.map Prod.fst).Nodup)
    {x : String × Tag} (hx : x ∈ l) : (ofList l).get? x.1 = some x.2 := by
  induction l with
  | nil => exact nomatch hx
  | cons y l ih =>
    -- the list is searched from its end, so what comes after `y` is asked first
    obtain ⟨hy, hl⟩ := List.nodup_cons.1 hl
    have hone : [y].lookup x.1 = if x.1 = y.1 then some y.2 else none := get?_cons x.1 y
    rw [get?_ofList, List.reverse_cons, List.lookup_append, ← get?_ofList, hone]
    rcases List.mem_cons.1 hx with rfl | hx
    · rw [get?_ofList_of_notMem hy, if_pos rfl]
      rfl
    · rw [ih hl hx]
      rfl

end VoxelEdit.Nbt.Fields
