import VoxelEdit.Pattern.Parser
import VoxelEdit.Proofs.Outcomes

/-!
# What a pattern that was read holds

A reader of patterns looks at every token once. So nothing that it does not accept gets into the
pattern, and nothing that it accepts is left out.

* `parse_formulas`: every formula that a pattern holds has been read without a fault.
* `parse_trees`: every tree of the text is a block of the pattern, with the entry that the tree
  describes.
-/

namespace VoxelEdit

/-! ## Formulas -/

/-- The formula of a weight. -/
def Weight.formulas : Weight → List String
  | .constant _ => []
  | .formula text => [text]

/-- The formula of a data value. -/
def DataSpec.formulas : DataSpec → List String
  | .any | .value _ => []
  | .formula text => [text]

/-- The formulas of a candidate. -/
def Descriptor.formulas : Descriptor → List String
  | .named _ data | .legacy _ data => data.formulas
  | .legacyFormula id data => id :: data.formulas
  | .runtimeFormula id => [id]
  | .runtime _ | .tree _ => []

/-- The formulas of a term. -/
def Term.formulas (t : Term) : List String := t.weight.formulas ++ t.descriptor.formulas

/-- Texts that are formulas, all of them. -/
def Readable (texts : List String) : Prop := ∀ text ∈ texts, ∃ e, Expr.parse text = .ok e

theorem Readable.nil : Readable [] := List.forall_mem_nil _

theorem Readable.append {as bs : List String} (ha : Readable as) (hb : Readable bs) :
    Readable (as ++ bs) := fun text h => (List.mem_append.1 h).elim (ha text) (hb text)

namespace Pattern

variable {ts rest : List Spanned}

theorem formula_ok {pos : Nat} {text s : String} (h : formula pos text = .ok s) : Readable [s] := by
  unfold formula at h
  split at h
  · rename_i e he
    cases h
    exact List.forall_mem_singleton.2 ⟨e, he⟩
  · exact nomatch h

/-! ## Steps of the reader

Each step has read formulas, and it leaves the trees that it does not read. -/

/-- Tokens go on with all trees of others. -/
def LeavesTrees (ts rest : List Spanned) : Prop :=
  ∀ pos text, ⟨pos, .tree text⟩ ∈ ts → ⟨pos, .tree text⟩ ∈ rest

theorem LeavesTrees.refl (ts : List Spanned) : LeavesTrees ts ts := fun _ _ h => h

theorem LeavesTrees.cons {t : Spanned} (ht : ∀ text, t.token ≠ .tree text)
    (h : LeavesTrees ts rest) : LeavesTrees (t :: ts) rest := by
  intro pos text hmem
  rcases List.mem_cons.1 hmem with rfl | hmem
  · exact absurd rfl (ht text)
  · exact h pos text hmem

theorem weightOf_ok {t : Spanned} {w : Weight} (h : weightOf t = .ok w) :
    Readable w.formulas ∧ ∀ text, t.token ≠ .tree text := by
  unfold weightOf at h
  split at h
  · rename_i htoken
    have hw : Readable w.formulas := by
      split at h
      · cases h
      · split at h
        · cases h
        · cases h
          exact .nil
    exact ⟨hw, fun text heq => by rw [htoken] at heq; cases heq⟩
  · rename_i htoken
    obtain ⟨s, hs, rfl⟩ := exists_of_map_eq_ok h
    exact ⟨formula_ok hs, fun text heq => by rw [htoken] at heq; cases heq⟩
  · cases h

theorem weight_ok {w : Weight} (h : weight ts = .ok (w, rest)) :
    Readable w.formulas ∧ LeavesTrees ts rest := by
  unfold weight at h
  split at h
  · obtain ⟨v, hv, heq⟩ := exists_of_map_eq_ok h
    cases heq
    obtain ⟨hformulas, htree⟩ := weightOf_ok hv
    exact ⟨hformulas, .cons htree (.cons nofun (.refl _))⟩
  · cases h
    exact ⟨.nil, .refl _⟩

theorem data_ok {fin : Nat} {d : DataSpec} (h : data fin ts = .ok (d, rest)) :
    Readable d.formulas ∧ LeavesTrees ts rest := by
  unfold data at h
  split at h
  · split at h
    · split at h
      · cases h
        exact ⟨.nil, .cons nofun (.cons nofun (.refl _))⟩
      · exact nomatch h
    · obtain ⟨s, hs, heq⟩ := exists_of_map_eq_ok h
      cases heq
      exact ⟨formula_ok hs, .cons nofun (.cons nofun (.refl _))⟩
    · exact nomatch h
  · cases h
    exact ⟨.nil, .refl _⟩

/-- The block of a tree has the entry that the tree describes. -/
def IsTree (text : String) (d : Descriptor) : Prop :=
  ∃ entry, Descriptor.treeEntry text = .ok entry ∧ d = .tree entry

theorem ofTree_ok {text : String} {pos : Nat} {d : Descriptor}
    (h : Descriptor.ofTree text pos = .ok d) : IsTree text d := by
  unfold Descriptor.ofTree at h
  split at h
  · rename_i entry hentry
    cases h
    exact ⟨entry, hentry, rfl⟩
  · exact nomatch h

theorem ofName_formulas (name : String) (states : List (String × String)) {data : DataSpec}
    (h : Readable data.formulas) : Readable (Descriptor.ofName name states data).formulas := by
  unfold Descriptor.ofName
  split
  · exact .nil
  · exact h

/-- **A block that was read** holds formulas only, and it is the block of the tree that it was read
from, if that was a tree. -/
theorem descriptor_ok {fin : Nat} {d : Descriptor} (h : descriptor fin ts = .ok (d, rest)) :
    Readable d.formulas ∧ ∀ pos text, ⟨pos, .tree text⟩ ∈ ts →
      ⟨pos, .tree text⟩ ∈ rest ∨ IsTree text d := by
  -- every case but the one of a tree leaves all trees
  have hleaves (hd : Readable d.formulas) (hrest : LeavesTrees ts rest) :
      Readable d.formulas ∧ ∀ pos text, ⟨pos, .tree text⟩ ∈ ts →
        ⟨pos, .tree text⟩ ∈ rest ∨ IsTree text d :=
    ⟨hd, fun pos text hmem => .inl (hrest pos text hmem)⟩
  unfold descriptor at h
  split at h
  · exact nomatch h
  split at h
  · obtain ⟨⟨data, tail⟩, hdata, heq⟩ := bind_eq_ok h
    cases heq
    obtain ⟨hformulas, hrest⟩ := data_ok hdata
    exact hleaves (ofName_formulas _ _ hformulas) (.cons nofun hrest)
  · obtain ⟨id, -, h⟩ := bind_eq_ok h
    obtain ⟨⟨data, tail⟩, hdata, heq⟩ := bind_eq_ok h
    cases heq
    obtain ⟨hformulas, hrest⟩ := data_ok hdata
    exact hleaves hformulas (.cons nofun hrest)
  · obtain ⟨id, hid, h⟩ := bind_eq_ok h
    obtain ⟨⟨data, tail⟩, hdata, heq⟩ := bind_eq_ok h
    cases heq
    obtain ⟨hformulas, hrest⟩ := data_ok hdata
    exact hleaves ((formula_ok hid).append hformulas) (.cons nofun hrest)
  · obtain ⟨id, hid, heq⟩ := bind_eq_ok h
    cases heq
    exact hleaves (formula_ok hid) (.cons nofun (.refl _))
  · rename_i own
    obtain ⟨tree, htree, heq⟩ := bind_eq_ok h
    cases heq
    obtain ⟨entry, hentry, rfl⟩ := ofTree_ok htree
    refine ⟨.nil, fun pos text hmem => ?_⟩
    rcases List.mem_cons.1 hmem with heq | hmem
    · cases heq
      exact .inr ⟨entry, hentry, rfl⟩
    · exact .inl hmem
  · exact nomatch h
  · exact nomatch h

/-! ## The whole text -/

theorem termsUpTo_ok {fin limit : Nat} {terms : List Term} (h : termsUpTo fin limit ts = .ok terms) :
    (∀ t ∈ terms, Readable t.formulas) ∧
      ∀ pos text, ⟨pos, .tree text⟩ ∈ ts → ∃ t ∈ terms, IsTree text t.descriptor := by
  induction limit generalizing ts terms with
  | zero => exact nomatch h
  | succ limit ih =>
    rw [termsUpTo] at h
    obtain ⟨⟨w, mid⟩, hweight, h⟩ := bind_eq_ok h
    obtain ⟨⟨d, rest⟩, hdescriptor, h⟩ := bind_eq_ok h
    obtain ⟨hw, hmid⟩ := weight_ok hweight
    obtain ⟨hd, htree⟩ := descriptor_ok hdescriptor
    dsimp only at h
    split at h
    · -- the last term
      cases h
      refine ⟨List.forall_mem_singleton.2 (hw.append hd), fun pos text hmem => ?_⟩
      rcases htree pos text (hmid pos text hmem) with hnil | hd
      · exact absurd hnil List.not_mem_nil
      · exact ⟨_, List.mem_singleton_self _, hd⟩
    · rename_i others
      obtain ⟨more, hmore, heq⟩ := bind_eq_ok h
      cases heq
      obtain ⟨hformulas, htrees⟩ := ih hmore
      refine ⟨List.forall_mem_cons.2 ⟨hw.append hd, hformulas⟩, fun pos text hmem => ?_⟩
      rcases htree pos text (hmid pos text hmem) with hrest | hd
      · have hothers : ⟨pos, .tree text⟩ ∈ others :=
          LeavesTrees.cons (t := ⟨_, .comma⟩) nofun (.refl others) pos text hrest
        obtain ⟨t, ht, hd⟩ := htrees pos text hothers
        exact ⟨t, List.mem_cons_of_mem _ ht, hd⟩
      · exact ⟨_, List.mem_cons_self, hd⟩
    · exact nomatch h

theorem offsetPart_ok {fin : Nat} {v : Int} (h : offsetPart fin ts = .ok (v, rest)) :
    LeavesTrees ts rest := by
  unfold offsetPart at h
  split at h
  · obtain ⟨v, -, heq⟩ := bind_eq_ok h
    cases heq
    exact .cons nofun (.refl _)
  · exact nomatch h

theorem offsetMore_ok {fin : Nat} {v : Int} (h : offsetMore fin ts = .ok (v, rest)) :
    LeavesTrees ts rest := by
  unfold offsetMore at h
  split at h
  · exact .cons nofun (offsetPart_ok h)
  · cases h
    exact .refl _

theorem offset_ok {fin : Nat} {o : Pos} (h : offset fin ts = .ok (o, rest)) :
    LeavesTrees ts rest := by
  unfold offset at h
  split at h
  · obtain ⟨⟨x, tail⟩, hx, h⟩ := bind_eq_ok h
    obtain ⟨⟨y, tail'⟩, hy, h⟩ := bind_eq_ok h
    obtain ⟨⟨z, tail''⟩, hz, heq⟩ := bind_eq_ok h
    cases heq
    exact fun pos text hmem =>
      offsetMore_ok hz pos text (offsetMore_ok hy pos text (offsetPart_ok hx pos text hmem))
  · cases h
    exact .refl _

/-- Behind a flag, if there is one, stand an offset and nothing else. -/
theorem offset_end {fin : Nat} {x : Except PatternError (Bool × List Spanned)} {t : Tiling}
    {centered : Bool} (hx : x = .ok (centered, ts))
    (h : (x >>= fun flag => offset fin flag.2 >>= fun o => match o.2 with
      | [] => pure (⟨flag.1, o.1⟩ : Tiling)
      | t :: _ => throw (.mixedClipboard t.pos)) = .ok t) : LeavesTrees ts [] := by
  subst hx
  obtain ⟨⟨flag, mid⟩, hflag, h⟩ := bind_eq_ok h
  obtain ⟨⟨o, rest⟩, ho, h⟩ := bind_eq_ok h
  cases hflag
  dsimp only at h
  split at h
  · exact offset_ok ho
  · cases h

/-- Behind `#clipboard` stands no tree. -/
theorem tiling_ok {fin : Nat} {t : Tiling} (h : tiling fin ts = .ok t) : LeavesTrees ts [] := by
  unfold tiling at h
  dsimp only at h
  split at h
  · split at h
    · exact .cons nofun (offset_end rfl h)
    · cases h
  · exact offset_end rfl h

/-- What was read of tokens, with the tokens that it was read from. -/
theorem parse_eq_ok {text : String} {p : Pattern} (h : parse text = .ok p) : ∃ ts source,
    Token.ofText text = .ok ts ∧ sourceOf text.utf8ByteSize ts = .ok source ∧ p = ⟨text, source⟩ := by
  unfold parse at h
  obtain ⟨ts, hts, h⟩ := bind_eq_ok h
  obtain ⟨-, h⟩ := of_check h
  obtain ⟨source, hsource, heq⟩ := bind_eq_ok h
  exact ⟨ts, source, hts, hsource, (Except.ok.inj heq).symm⟩

/-- **Formulas of a pattern have been read.** -/
theorem parse_formulas {text : String} {p : Pattern} (h : parse text = .ok p) :
    ∀ t ∈ p.terms, Readable t.formulas := by
  obtain ⟨ts, source, -, hsource, rfl⟩ := parse_eq_ok h
  unfold sourceOf at hsource
  split at hsource
  · split at hsource
    · obtain ⟨tiling, -, rfl⟩ := exists_of_map_eq_ok hsource
      exact fun t ht => absurd ht List.not_mem_nil
    · exact nomatch hsource
  · obtain ⟨terms, hterms, rfl⟩ := exists_of_map_eq_ok hsource
    exact (termsUpTo_ok hterms).1

/-- **Trees of a pattern are blocks of it.** -/
theorem parse_trees {text : String} {p : Pattern} (h : parse text = .ok p) {ts : List Spanned}
    (hts : Token.ofText text = .ok ts) {pos : Nat} {tree : String} (hmem : ⟨pos, .tree tree⟩ ∈ ts) :
    ∃ t ∈ p.terms, IsTree tree t.descriptor := by
  obtain ⟨ts', source, hts', hsource, rfl⟩ := parse_eq_ok h
  cases hts.symm.trans hts'
  unfold sourceOf at hsource
  split at hsource
  · rename_i at' name rest
    split at hsource
    · obtain ⟨tiling, htiling, rfl⟩ := exists_of_map_eq_ok hsource
      have hnone : LeavesTrees (⟨at', .directive name⟩ :: rest) [] := .cons nofun (tiling_ok htiling)
      exact absurd (hnone pos tree hmem) List.not_mem_nil
    · exact nomatch hsource
  · obtain ⟨terms, hterms, rfl⟩ := exists_of_map_eq_ok hsource
    exact (termsUpTo_ok hterms).2 pos tree hmem

end Pattern

end VoxelEdit
