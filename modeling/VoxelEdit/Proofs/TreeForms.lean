import Mathlib
import VoxelEdit.Proofs.BracedText
import VoxelEdit.Proofs.ParsedTerms
import VoxelEdit.Proofs.TreeReading

/-!
# What a tree is read from

A tree in doubled braces is meant to be one to three compounds with blanks around them. A pattern
that was read has that many compounds in each of its trees, and its block is theirs. But whatever
else stands between the braces is passed over, so the tree has the form that is meant only if that
is blank.

* `Descriptor.parts_inBraces`: a text in doubled braces is cut into the compounds between them.
* `Pattern.tree_of_compounds`: what a tree of a pattern consists of, and what its block is.
-/

namespace VoxelEdit

open Text

/-- One to three compounds, with blanks before, between and after them. -/
def IsPayload (body : List Char) : Prop :=
  ∃ ps, 1 ≤ ps.length ∧ ps.length ≤ 3 ∧ (∀ p ∈ ps, IsCompound p) ∧ Spaced isBlank ps body

namespace Descriptor

variable {body stray : List Char} {ps : List (List Char)}

/-- What stands in doubled braces begins with one. -/
theorem head?_of_doubled {rest : List Char} (h : ['\x7b', '\x7b'] ++ rest = inBraces body) :
    body.head? = some '\x7b' := by
  have htail := List.tail_eq_of_cons_eq h
  cases body with
  | nil => exact absurd (List.head_eq_of_cons_eq htail) (by decide)
  | cons c body => exact congrArg some (List.head_eq_of_cons_eq htail).symm

theorem parts_inBraces (hdouble : body.head? = some '\x7b') (h : Parted body ps stray) :
    parts (inBraces body) = ps := by
  obtain ⟨rest, rfl⟩ := List.head?_eq_some_iff.1 hdouble
  show compounds (('\x7b' :: rest) ++ ['\x7d']).dropLast 0 none [] = ps
  rw [List.dropLast_concat]
  exact compounds_parted h

/-- Compounds with nothing between them are cut into the same compounds. -/
theorem parts_flatten (hne : ps ≠ []) (hps : ∀ p ∈ ps, IsCompound p) :
    parts (inBraces ps.flatten) = ps := by
  obtain ⟨stray, hparted, -⟩ := Parted.of_spaced hps (Spaced.flatten ps)
  refine parts_inBraces ?_ hparted
  obtain ⟨p, qs, rfl⟩ := List.exists_cons_of_ne_nil hne
  obtain ⟨inner, -, rfl⟩ := hps p List.mem_cons_self
  rfl

theorem exists_of_mapM {α β : Type} {f : α → Option β} {as : List α} {bs : List β}
    (h : as.mapM f = some bs) : ∀ a ∈ as, ∃ b, f a = some b := by
  induction as generalizing bs with
  | nil => exact List.forall_mem_nil _
  | cons a as ih =>
    rw [List.mapM_cons] at h
    obtain ⟨b, hb, h⟩ := Option.bind_eq_some_iff.1 h
    obtain ⟨more, hmore, -⟩ := Option.bind_eq_some_iff.1 h
    exact List.forall_mem_cons.2 ⟨⟨b, hb⟩, ih hmore⟩

/-- Only the parts of a text matter. -/
theorem treeEntry_congr {text text' : String} (h : parts text.toList = parts text'.toList) :
    treeEntry text = treeEntry text' := by
  unfold treeEntry
  rw [h]

/-- One to three compounds have been read. -/
theorem treeEntry_ok {text : String} {entry : Entry} (h : treeEntry text = .ok entry) :
    1 ≤ (parts text.toList).length ∧ (parts text.toList).length ≤ 3 ∧
      ∀ q ∈ parts text.toList, ∃ fs, Nbt.Text.compound? q = some fs := by
  unfold treeEntry at h
  obtain ⟨hcount, h⟩ := of_check h
  have hlength : 1 ≤ (parts text.toList).length ∧ (parts text.toList).length ≤ 3 := by
    cases hps : parts text.toList with
    | nil => simp [hps] at hcount
    | cons p ps => simpa [hps] using hcount
  refine ⟨hlength.1, hlength.2, ?_⟩
  split at h
  · cases h
  all_goals
    rename_i hread
    exact exists_of_mapM hread

end Descriptor

/-- **What stands around the compounds decides the form.** -/
theorem isPayload_iff {body stray : List Char} {ps : List (List Char)} (h : Parted body ps stray)
    (hone : 1 ≤ ps.length) (hthree : ps.length ≤ 3) :
    IsPayload body ↔ ∀ c ∈ stray, isBlank c = true := by
  constructor
  · rintro ⟨qs, -, -, hqs, hspaced⟩
    obtain ⟨gaps, hparted, hgaps⟩ := Parted.of_spaced hqs hspaced
    -- a text is cut in one way, so the same characters are left
    have hcut : Descriptor.compounds body 0 none [] = ps := Descriptor.compounds_parted h
    obtain rfl : ps = qs := hcut.symm.trans (Descriptor.compounds_parted hparted)
    have hperm : stray.Perm gaps :=
      (List.perm_append_left_iff ps.flatten).1 (h.perm.symm.trans hparted.perm)
    exact fun c hc => hgaps c (hperm.subset hc)
  · exact fun hstray => ⟨ps, hone, hthree, h.compounds, h.spaced hstray⟩

namespace Pattern

variable {text : String} {p : Pattern}

/-- A text that is a tree and nothing else. -/
theorem parse_tree {pos : Nat} {tree : String} {entry : Entry}
    (hts : Token.ofText text = .ok [⟨pos, .tree tree⟩])
    (h : Descriptor.treeEntry tree = .ok entry) :
    parse text = .ok ⟨text, .terms [⟨.constant 1.0, .tree entry⟩]⟩ := by
  have htree : Descriptor.ofTree tree pos = .ok (.tree entry) := by
    unfold Descriptor.ofTree
    rw [h]
  have hsource : sourceOf text.utf8ByteSize [⟨pos, .tree tree⟩] =
      .ok (.terms [⟨.constant 1.0, .tree entry⟩]) := by
    simp only [sourceOf, List.length_singleton, termsUpTo, weight, descriptor]
    simp only [bind, Except.bind, pure, Except.pure, htree]
    rfl
  unfold parse
  rw [hts]
  simp only [bind, Except.bind, hsource]
  rfl

/-- The compound that names stone. -/
def stoneText : List Char :=
  ['\x7b', 'N', 'a', 'm', 'e', ':', 's', 't', 'o', 'n', 'e', '\x7d']

theorem compound_stone : Nbt.Text.compound? stoneText = some [("Name", .string "stone")] := by
  have hname : Nbt.Text.name? ['N', 'a', 'm', 'e', ':', 's', 't', 'o', 'n', 'e', '\x7d'] =
      some ("Name", [':', 's', 't', 'o', 'n', 'e', '\x7d']) := by decide +kernel
  have hword : Nbt.Text.word? ['s', 't', 'o', 'n', 'e', '\x7d'] =
      some (['s', 't', 'o', 'n', 'e'], ['\x7d']) := by decide +kernel
  have hvalue : Nbt.Text.value? 11 ['s', 't', 'o', 'n', 'e', '\x7d'] =
      some (.string "stone", ['\x7d']) :=
    Nbt.Text.value_of_word rfl (by decide) (by decide) (by decide) hword rfl
  have hfields : Nbt.Text.fields? 12 (Nbt.Text.skip stoneText.tail) [] =
      some ([("Name", .string "stone")], []) :=
    Nbt.Text.fields_of_last hname rfl hvalue rfl
  have hopen : Nbt.Text.skip stoneText = '\x7b' :: stoneText.tail := rfl
  have hbody : ∀ tail, Nbt.Text.skip stoneText.tail ≠ '\x7d' :: tail := fun tail h =>
    absurd (List.head_eq_of_cons_eq h) (by decide)
  exact Nbt.Text.compound_of_value hopen (Nbt.Text.value_of_fields hopen hbody hfields)

/-- A tree whose only compound names stone is stone. -/
theorem treeEntry_stone {tree : String} (h : Descriptor.parts tree.toList = [stoneText]) :
    Descriptor.treeEntry tree = .ok (.ofBlock (.ofName "minecraft:stone")) := by
  have hread : [stoneText].mapM Nbt.Text.compound? = some [[("Name", .string "stone")]] := by
    rw [List.mapM_cons, compound_stone]
    rfl
  have hblock : Descriptor.treeBlock [("Name", .string "stone")] =
      .ok (.ofName "minecraft:stone") := by
    simp [Descriptor.treeBlock, Block.ofFields?, Block.sortProperties, Nbt.Fields.compound?,
      Nbt.Fields.string?, Nbt.Fields.get?, List.lookup]
    rfl
  unfold Descriptor.treeEntry
  rw [h]
  dsimp only
  rw [if_neg (by decide), hread]
  dsimp only
  rw [hblock]
  rfl

/-- **A tree in doubled braces is one to three compounds**, and what stands around them. Each
compound has been read to its end. The block of the tree is the one that the compounds alone
describe: all else is passed over. So the tree has the form that is meant exactly if all else is
blank. -/
theorem tree_of_compounds (h : parse text = .ok p) {ts : List Spanned}
    (hts : Token.ofText text = .ok ts) {pos : Nat} {tree : String} (hmem : ⟨pos, .tree tree⟩ ∈ ts)
    (hdouble : ['\x7b', '\x7b'] <+: tree.toList) :
    ∃ body ps stray, tree.toList = inBraces body ∧ Parted body ps stray ∧
      1 ≤ ps.length ∧ ps.length ≤ 3 ∧
      (∀ q ∈ ps, ∃ fs, Nbt.Text.value? (q.length + 1) q = some (.compound fs, [])) ∧
      (∃ t ∈ p.terms, IsTree tree t.descriptor ∧
        IsTree (String.ofList (inBraces ps.flatten)) t.descriptor) ∧
      (IsPayload body ↔ ∀ c ∈ stray, isBlank c = true) := by
  obtain ⟨body, ⟨ps, stray, hparted⟩, htree⟩ := Token.ofText_trees hts hmem
  obtain ⟨rest, hrest⟩ := hdouble
  rw [htree] at hrest
  have hparts : Descriptor.parts tree.toList = ps := by
    rw [htree]
    exact Descriptor.parts_inBraces (Descriptor.head?_of_doubled hrest) hparted
  obtain ⟨t, ht, entry, hentry, hd⟩ := parse_trees h hts hmem
  obtain ⟨hone, hthree, hread⟩ := Descriptor.treeEntry_ok hentry
  rw [hparts] at hone hthree hread
  -- the compounds alone are cut into themselves, so they describe the same entry
  have hclean : Descriptor.treeEntry (String.ofList (inBraces ps.flatten)) = .ok entry := by
    rw [← hentry]
    refine Descriptor.treeEntry_congr ?_
    rw [hparts, String.toList_ofList]
    exact Descriptor.parts_flatten (List.ne_nil_of_length_pos hone) hparted.compounds
  have hwhole : ∀ q ∈ ps, ∃ fs, Nbt.Text.value? (q.length + 1) q = some (.compound fs, []) := by
    intro q hq
    obtain ⟨fs, hfs⟩ := hread q hq
    exact ⟨fs, Nbt.Text.compound_whole (hparted.compounds q hq) hfs⟩
  exact ⟨body, ps, stray, htree, hparted, hone, hthree, hwhole,
    ⟨t, ht, ⟨entry, hentry, hd⟩, ⟨entry, hclean, hd⟩⟩, isPayload_iff hparted hone hthree⟩

/-- The compound that names stone, on its own. -/
theorem tree_of_compounds_stone :
    let text := "\x7b\x7bName:stone\x7d\x7d"
    ∃ p, parse text = .ok p ∧ Token.ofText text = .ok [⟨0, .tree text⟩] ∧
      ['\x7b', '\x7b'] <+: text.toList ∧
      ∃ body ps stray, text.toList = inBraces body ∧ Parted body ps stray ∧
        ∃ t ∈ p.terms, IsTree (String.ofList (inBraces ps.flatten)) t.descriptor := by
  intro text
  have hts : Token.ofText text = .ok [⟨0, .tree text⟩] := by decide +kernel
  have hparse := parse_tree hts (treeEntry_stone (by decide +kernel))
  have hdouble : ['\x7b', '\x7b'] <+: text.toList := by decide +kernel
  obtain ⟨body, ps, stray, htext, hparted, -, -, -, ⟨t, ht, -, htree⟩, -⟩ :=
    tree_of_compounds hparse hts (List.mem_singleton_self _) hdouble
  exact ⟨_, hparse, hts, hdouble, body, ps, stray, htext, hparted, t, ht, htree⟩

/-- A word behind the compound is no part of a block, and it is no fault either. -/
theorem stray_word_passed_over :
    let text := "\x7b\x7bName:stone\x7djunk\x7d"
    Token.ofText text = .ok [⟨0, .tree text⟩] ∧
      parse text = .ok ⟨text, .terms [⟨.constant 1.0, .tree (.ofBlock (.ofName "minecraft:stone"))⟩]⟩ ∧
      ∃ body, text.toList = inBraces body ∧ ¬ IsPayload body := by
  intro text
  have hts : Token.ofText text = .ok [⟨0, .tree text⟩] := by decide +kernel
  have hparse := parse_tree hts (treeEntry_stone (by decide +kernel))
  have hstone : Parted (stoneText ++ ['j', 'u', 'n', 'k']) [stoneText] ['j', 'u', 'n', 'k'] := by
    have hinner : Parted ['N', 'a', 'm', 'e', ':', 's', 't', 'o', 'n', 'e'] [] _ :=
      .of_plain (by simp [IsQuote, IsBrace])
    exact .braced hinner (.of_plain (by simp [IsQuote, IsBrace]))
  refine ⟨hts, hparse, stoneText ++ ['j', 'u', 'n', 'k'], by decide +kernel, ?_⟩
  rw [isPayload_iff hstone (Nat.le_refl 1) (by decide)]
  intro hblank
  exact absurd (hblank 'j' List.mem_cons_self) (by decide)

end Pattern

end VoxelEdit
