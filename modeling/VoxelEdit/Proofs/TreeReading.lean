import Mathlib.Data.List.TakeWhile
import VoxelEdit.Proofs.BracedText

/-!
# Compounds are read to their end

A reader of tags ignores what follows the closing brace of a compound. In a compound, nothing does:
what a reader passes over is closed, so the brace at which it stops is the last one.

* `Nbt.Text.Reads`: what stands between two places of a text is closed. Each reader of values,
  fields and items reads on (`value_reads`, `fields_reads`, `items_reads`).
* `Nbt.Text.compound_whole`: a compound that is read is read to its end.
-/

namespace VoxelEdit.Nbt.Text

open VoxelEdit.Text

/-- A reader gets from `cs` to `rest`, past closed text. -/
def Reads (cs rest : List Char) : Prop := ∃ used, Closed used ∧ cs = used ++ rest

section

variable {c : Char} {cs mid rest : List Char}

theorem Reads.refl (cs : List Char) : Reads cs cs := ⟨[], ⟨[], [], .nil⟩, rfl⟩

theorem Reads.trans (h : Reads cs mid) (h' : Reads mid rest) : Reads cs rest := by
  obtain ⟨used, ⟨ps, stray, hused⟩, rfl⟩ := h
  obtain ⟨more, ⟨qs, others, hmore⟩, rfl⟩ := h'
  exact ⟨used ++ more, ⟨_, _, hused.append hmore⟩, (List.append_assoc _ _ _).symm⟩

/-- A run of characters without quotes and braces. -/
theorem Reads.plain {used : List Char} (h : ∀ c ∈ used, ¬ IsQuote c ∧ ¬ IsBrace c) :
    Reads (used ++ rest) rest := ⟨used, ⟨[], used, .of_plain h⟩, rfl⟩

/-- One mark other than a quote or a brace. -/
theorem Reads.mark (hquote : ¬ IsQuote c) (hbrace : ¬ IsBrace c) : Reads (c :: rest) rest :=
  .plain (List.forall_mem_singleton.2 ⟨hquote, hbrace⟩)

theorem Reads.comma : Reads (',' :: rest) rest :=
  .mark (by decide) (by decide)

theorem Reads.bracket : Reads (']' :: rest) rest :=
  .mark (by decide) (by decide)

/-- A compound, if its content is read up to the brace. -/
theorem Reads.braces (h : Reads cs ('\x7d' :: rest)) : Reads ('\x7b' :: cs) rest := by
  obtain ⟨inner, ⟨ps, stray, hinner⟩, rfl⟩ := h
  refine ⟨inBraces inner ++ [], ⟨_, _, .braced hinner .nil⟩, ?_⟩
  simp [inBraces]

/-- A run of characters of a class without quotes and braces. -/
theorem Reads.span {class? : Char → Bool} (h : ∀ c, class? c = true → ¬ IsQuote c ∧ ¬ IsBrace c) :
    Reads cs (cs.dropWhile class?) := by
  have hplain : Reads (cs.takeWhile class? ++ cs.dropWhile class?) (cs.dropWhile class?) :=
    .plain fun c hc => h c (List.mem_takeWhile_imp hc)
  rwa [List.takeWhile_append_dropWhile] at hplain

theorem isSpace_plain (h : isSpace c = true) : ¬ IsQuote c ∧ ¬ IsBrace c := by
  refine ⟨?_, ?_⟩ <;> rintro (rfl | rfl) <;> cases h

theorem skip_reads (cs : List Char) : Reads cs (skip cs) := .span fun _ => isSpace_plain

theorem skipped_reads (h : Reads (skip cs) rest) : Reads cs rest := (skip_reads cs).trans h

/-- A bare word: what is dropped behind it are blanks. -/
theorem word_reads {w : List Char} (h : word? cs = some (w, rest)) : Reads cs rest := by
  unfold word? at h
  dsimp only at h
  set raw := cs.takeWhile fun c => !isMark c with hraw
  split at h
  · cases h
  · rename_i hkept
    simp only [Bool.or_eq_true, not_or, List.any_eq_true, not_exists, not_and] at hkept
    obtain ⟨rfl, rfl⟩ := Prod.mk.inj (Option.some.inj h)
    -- a word ends at a mark, and what was kept of it has no quote
    have hplain : ∀ c ∈ raw, ¬ IsQuote c ∧ ¬ IsBrace c := by
      intro c hc
      have hmark : ¬ isMark c = true := by simpa using List.mem_takeWhile_imp hc
      have hbrace : ¬ IsBrace c := by
        rintro (rfl | rfl) <;> exact hmark (by decide)
      rw [← List.mem_reverse, ← List.takeWhile_append_dropWhile (p := isSpace) (l := raw.reverse)] at hc
      rcases List.mem_append.1 hc with hspace | hc
      · exact isSpace_plain (List.mem_takeWhile_imp hspace)
      · refine ⟨?_, hbrace⟩
        have hforeign := hkept.2 c (List.mem_reverse.2 hc)
        rintro (rfl | rfl) <;> exact hforeign (by decide)
    have hreads : Reads (raw ++ cs.dropWhile fun c => !isMark c) _ := .plain hplain
    rwa [hraw, List.takeWhile_append_dropWhile] at hreads

theorem hexDigit_plain {v : Nat} (h : hexDigit? c = some v) : ¬ IsQuote c ∧ c ≠ '\\' := by
  refine ⟨?_, ?_⟩
  · rintro (rfl | rfl) <;> cases h
  · rintro rfl
    cases h

/-- A string: each escape is a backslash and a character, for a code point with its digits. -/
theorem quoted_reads {mark : Char} {taken : List Char} {s : String} (hmark : IsQuote mark)
    (h : quotedInto mark cs taken = some (s, rest)) : ∃ body, Quoted mark body ∧ cs = body ++ rest := by
  fun_induction quotedInto mark cs taken with
  | case1 | case7 | case9 => cases h
  | case2 a b c d tail taken ih =>
    -- a code point
    obtain ⟨_, ha, h⟩ := Option.bind_eq_some_iff.1 h
    obtain ⟨_, hb, h⟩ := Option.bind_eq_some_iff.1 h
    obtain ⟨_, hc, h⟩ := Option.bind_eq_some_iff.1 h
    obtain ⟨_, hd, h⟩ := Option.bind_eq_some_iff.1 h
    obtain ⟨_, -, h⟩ := Option.bind_eq_some_iff.1 h
    obtain ⟨body, hbody, rfl⟩ := ih _ h
    have hdigit {c : Char} {v : Nat} {body : List Char} (hc : hexDigit? c = some v)
        (h : Quoted mark body) : Quoted mark (c :: body) := by
      obtain ⟨hquote, hbackslash⟩ := hexDigit_plain hc
      exact .plain (fun heq => hquote (heq ▸ hmark)) hbackslash h
    exact ⟨_, .escaped (hdigit ha (hdigit hb (hdigit hc (hdigit hd hbody)))), rfl⟩
  | case3 _ _ _ _ _ ih | case4 _ _ _ _ ih | case5 _ _ _ _ _ ih | case6 _ _ _ _ _ _ ih =>
    obtain ⟨body, hbody, rfl⟩ := ih h
    exact ⟨_, .escaped hbody, rfl⟩
  | case8 =>
    obtain ⟨rfl, rfl⟩ := Prod.mk.inj (Option.some.inj h)
    exact ⟨[mark], .close, rfl⟩
  | case10 c tail taken _ _ hc hbackslash ih =>
    obtain ⟨body, hbody, rfl⟩ := ih h
    exact ⟨_, .plain hc hbackslash hbody, rfl⟩

/-- A string with its opening quote. -/
theorem string_reads {mark : Char} {s : String} (hmark : IsQuote mark)
    (h : quotedInto mark cs [] = some (s, rest)) : Reads (mark :: cs) rest := by
  obtain ⟨body, hbody, rfl⟩ := quoted_reads hmark h
  refine ⟨mark :: (body ++ []), ⟨_, _, .quoted hmark hbody .nil⟩, ?_⟩
  rw [List.append_nil, List.cons_append]

theorem name_reads {name : String} (h : name? cs = some (name, rest)) : Reads cs rest := by
  unfold name? at h
  split at h
  · rename_i c tail
    split at h
    · rename_i hquote
      exact string_reads (by simpa [IsQuote] using hquote) h
    · obtain ⟨⟨w, tail'⟩, hw, h⟩ := Option.bind_eq_some_iff.1 h
      dsimp only at h
      split at h
      · cases h
      · obtain ⟨-, rfl⟩ := Prod.mk.inj (Option.some.inj h)
        exact word_reads hw
  · cases h

/-- Numbers up to the closing bracket. -/
theorem elements_reads {limit : Nat} {taken vs : List Int}
    (h : elements? limit cs taken = some (vs, rest)) : Reads cs rest := by
  induction limit generalizing cs taken with
  | zero => cases h
  | succ limit ih =>
    rw [elements?] at h
    obtain ⟨⟨w, tail⟩, hw, h⟩ := Option.bind_eq_some_iff.1 h
    obtain ⟨v, -, h⟩ := Option.bind_eq_some_iff.1 h
    have hword : Reads cs tail := skipped_reads (word_reads hw)
    split at h
    · exact hword.trans (Reads.comma.trans (ih h))
    · obtain ⟨-, rfl⟩ := Prod.mk.inj (Option.some.inj h)
      exact hword.trans .bracket
    · cases h

/-- The letter says what becomes of the numbers, but not where they end. -/
theorem letter_end {letter : List Char} {x : Option (List Int × List Char)} {tag : Tag}
    (h : (x.bind fun (vs, tail) => match letter with
      | ['B'] => some (Tag.bytes (vs.map Int8.ofInt), tail)
      | ['I'] => some (Tag.ints (vs.map Int32.ofInt), tail)
      | ['L'] => some (Tag.longs (vs.map Int64.ofInt), tail)
      | _ => none) = some (tag, rest)) : ∃ vs, x = some (vs, rest) := by
  obtain ⟨⟨vs, tail⟩, rfl, h⟩ := Option.bind_eq_some_iff.1 h
  have htail : tail = rest := by
    dsimp only at h
    split at h
    · exact (Prod.mk.inj (Option.some.inj h)).2
    · exact (Prod.mk.inj (Option.some.inj h)).2
    · exact (Prod.mk.inj (Option.some.inj h)).2
    · cases h
  exact ⟨vs, by rw [htail]⟩

theorem array_reads {letter : List Char} {tag : Tag} (h : array? letter cs = some (tag, rest)) :
    Reads cs rest := by
  refine skipped_reads ?_
  unfold array? at h
  dsimp only at h
  split at h
  · rename_i hskip
    obtain ⟨vs, heq⟩ := letter_end h
    obtain ⟨-, rfl⟩ := Prod.mk.inj (Option.some.inj heq)
    rw [hskip]
    exact .bracket
  · obtain ⟨vs, hvs⟩ := letter_end h
    exact elements_reads hvs

theorem arrayLetter_reads {letter : List Char} (h : arrayLetter? cs = some (letter, rest)) :
    Reads cs rest := by
  unfold arrayLetter? at h
  split at h
  · rename_i w tail hw
    split at h
    · cases h
    · obtain ⟨-, rfl⟩ := Prod.mk.inj (Option.some.inj h)
      exact (word_reads hw).trans (.mark (by decide) (by decide))
  · cases h

/-- What each reader of trees reads, up to a bound of the recursion. -/
structure TreesRead (limit : Nat) : Prop where
  value : ∀ {cs rest tag}, value? limit cs = some (tag, rest) → Reads cs rest
  fields : ∀ {cs rest taken fs}, fields? limit cs taken = some (fs, rest) → Reads cs ('\x7d' :: rest)
  items : ∀ {cs rest taken tags}, items? limit cs taken = some (tags, rest) → Reads cs rest

namespace TreesRead

variable {limit : Nat}

/-- What an opening brace stands before. -/
theorem braces (h : TreesRead limit) {tag : Tag} (hread : (match skip cs with
      | '\x7d' :: rest => some (Tag.compound [], rest)
      | body => (fields? limit body []).map fun (fs, rest) => (.compound fs, rest)) =
        some (tag, rest)) : Reads cs ('\x7d' :: rest) := by
  refine skipped_reads ?_
  split at hread
  · rename_i hskip
    obtain ⟨-, rfl⟩ := Prod.mk.inj (Option.some.inj hread)
    rw [hskip]
    exact .refl _
  · obtain ⟨⟨fs, tail⟩, hfs, heq⟩ := Option.map_eq_some_iff.1 hread
    obtain ⟨-, rfl⟩ := Prod.mk.inj heq
    exact h.fields hfs

theorem value_step (h : TreesRead limit) {tag : Tag} (hread : value? (limit + 1) cs = some (tag, rest)) :
    Reads cs rest := by
  refine skipped_reads ?_
  unfold value? at hread
  split at hread
  · -- a compound
    rename_i hskip
    rw [hskip]
    exact .braces (h.braces hread)
  · -- a list, or an array of numbers
    rename_i tail hskip
    rw [hskip]
    have hopen : Reads ('[' :: tail) (skip tail) :=
      (Reads.mark (by decide) (by decide)).trans (skip_reads tail)
    refine hopen.trans ?_
    split at hread
    · rename_i hbody
      obtain ⟨-, rfl⟩ := Prod.mk.inj (Option.some.inj hread)
      rw [hbody]
      exact .bracket
    · split at hread
      · rename_i letter numbers hletter
        exact (arrayLetter_reads hletter).trans (array_reads hread)
      · obtain ⟨⟨items, tail'⟩, hitems, heq⟩ := Option.map_eq_some_iff.1 hread
        obtain ⟨-, rfl⟩ := Prod.mk.inj heq
        exact h.items hitems
  · -- a string, or a bare word
    rename_i c tail _ _ hskip
    rw [hskip]
    split at hread
    · rename_i hquote
      obtain ⟨⟨s, tail'⟩, hs, heq⟩ := Option.map_eq_some_iff.1 hread
      obtain ⟨-, rfl⟩ := Prod.mk.inj heq
      exact string_reads (by simpa [IsQuote] using hquote) hs
    · obtain ⟨⟨w, tail'⟩, hw, hread⟩ := Option.bind_eq_some_iff.1 hread
      obtain ⟨v, -, heq⟩ := Option.bind_eq_some_iff.1 hread
      obtain ⟨-, rfl⟩ := Prod.mk.inj (Option.some.inj heq)
      exact word_reads hw
  · cases hread

theorem fields_step (h : TreesRead limit) {taken fs : Fields}
    (hread : fields? (limit + 1) cs taken = some (fs, rest)) : Reads cs ('\x7d' :: rest) := by
  unfold fields? at hread
  obtain ⟨⟨name, tail⟩, hname, hread⟩ := Option.bind_eq_some_iff.1 hread
  have hcolon : Reads cs (skip tail) := skipped_reads ((name_reads hname).trans (skip_reads tail))
  dsimp only at hread
  split at hread
  · rename_i body hskip
    rw [hskip] at hcolon
    have hbody : Reads cs body :=
      hcolon.trans (.mark (by decide) (by decide))
    obtain ⟨⟨tag, tail'⟩, htag, hread⟩ := Option.bind_eq_some_iff.1 hread
    have hvalue : Reads cs (skip tail') := hbody.trans ((h.value htag).trans (skip_reads tail'))
    dsimp only at hread
    split at hread
    · rename_i hskip'
      rw [hskip'] at hvalue
      exact hvalue.trans (Reads.comma.trans (h.fields hread))
    · rename_i hskip'
      rw [hskip'] at hvalue
      obtain ⟨-, rfl⟩ := Prod.mk.inj (Option.some.inj hread)
      exact hvalue
    · cases hread
  · cases hread

/-- Behind an item stands another one, or the closing bracket. -/
theorem item_end (h : TreesRead limit) {taken tags : List Tag} (hitem : Reads cs (skip mid))
    (hread : (match skip mid with
      | ',' :: tail => items? limit tail taken
      | ']' :: tail => some (taken.reverse, tail)
      | _ => none) = some (tags, rest)) : Reads cs rest := by
  split at hread
  · rename_i hskip
    rw [hskip] at hitem
    exact hitem.trans (Reads.comma.trans (h.items hread))
  · rename_i hskip
    rw [hskip] at hitem
    obtain ⟨-, rfl⟩ := Prod.mk.inj (Option.some.inj hread)
    exact hitem.trans .bracket
  · cases hread

theorem items_step (h : TreesRead limit) {taken tags : List Tag}
    (hread : items? (limit + 1) cs taken = some (tags, rest)) : Reads cs rest := by
  unfold items? at hread
  obtain ⟨⟨tag, tail⟩, htag, hread⟩ := Option.bind_eq_some_iff.1 hread
  have hitem : Reads cs (skip tail) := (h.value htag).trans (skip_reads tail)
  dsimp only at hread
  split at hread
  · exact h.item_end hitem hread
  · split at hread
    · cases hread
    · exact h.item_end hitem hread

end TreesRead

/-- **What is read of a tree** is closed. -/
theorem trees_read (limit : Nat) : TreesRead limit := by
  induction limit with
  | zero =>
    constructor
    · intro _ _ _ h
      cases h
    · intro _ _ _ _ h
      cases h
    · intro _ _ _ _ h
      cases h
  | succ limit ih => exact ⟨ih.value_step, ih.fields_step, ih.items_step⟩

/-- **A compound that is read is read to its end.** -/
theorem compound_whole {fs : Fields} (h : IsCompound cs) (hread : compound? cs = some fs) :
    value? (cs.length + 1) cs = some (.compound fs, []) := by
  obtain ⟨inner, hinner, rfl⟩ := h
  have hvalue : ∃ rest, value? ((inBraces inner).length + 1) (inBraces inner) =
      some (.compound fs, rest) := by
    unfold compound? at hread
    split at hread
    · split at hread
      · rename_i fs' rest hvalue
        cases hread
        exact ⟨rest, hvalue⟩
      · cases hread
    · cases hread
  obtain ⟨rest, hvalue⟩ := hvalue
  -- the reader stops at the brace of a compound, and there is one only
  have hread' := hvalue
  unfold value? at hread'
  obtain ⟨first, hfirst, heq⟩ := (trees_read _).braces hread'
  have hrest : rest = [] := by
    refine Descriptor.rest_eq_nil hinner hfirst ?_
    unfold inBraces
    rw [heq]
    simp
  rw [hvalue, hrest]

/-! ## Steps of the reader -/

variable {limit : Nat} {tag : Tag}

/-- A bare word is a value. -/
theorem value_of_word {w : List Char} (hskip : skip cs = c :: mid) (hbrace : c ≠ '\x7b')
    (hbracket : c ≠ '[') (hquote : ¬ IsQuote c) (hword : word? (c :: mid) = some (w, rest))
    (hscalar : scalar? w = some tag) : value? (limit + 1) cs = some (tag, rest) := by
  unfold value?
  split
  · rename_i heq
    exact absurd (List.head_eq_of_cons_eq (hskip.symm.trans heq)) hbrace
  · rename_i heq
    exact absurd (List.head_eq_of_cons_eq (hskip.symm.trans heq)) hbracket
  · rename_i heq
    obtain ⟨rfl, rfl⟩ := List.cons.inj (hskip.symm.trans heq)
    rw [if_neg (by simpa [IsQuote] using hquote), hword]
    simp only [Option.bind_eq_bind, Option.bind_some, hscalar]
  · rename_i heq
    cases hskip.symm.trans heq

/-- A compound is a value. -/
theorem value_of_fields {fs : Fields} (hskip : skip cs = '\x7b' :: mid)
    (hbody : ∀ tail, skip mid ≠ '\x7d' :: tail)
    (hfields : fields? limit (skip mid) [] = some (fs, rest)) :
    value? (limit + 1) cs = some (.compound fs, rest) := by
  unfold value?
  split
  · rename_i heq
    obtain rfl := List.tail_eq_of_cons_eq (hskip.symm.trans heq)
    split
    · rename_i hclose
      exact absurd hclose (hbody _)
    · rw [hfields]
      rfl
  · rename_i heq
    exact absurd (List.head_eq_of_cons_eq (hskip.symm.trans heq)) (by decide)
  · rename_i hopen _ heq
    exact absurd (List.head_eq_of_cons_eq (hskip.symm.trans heq)).symm hopen
  · rename_i heq
    cases hskip.symm.trans heq

/-- The last field of a compound. -/
theorem fields_of_last {name : String} {vs tail : List Char} {taken : Fields}
    (hname : name? (skip cs) = some (name, mid)) (hcolon : skip mid = ':' :: vs)
    (hvalue : value? limit vs = some (tag, rest)) (hend : skip rest = '\x7d' :: tail) :
    fields? (limit + 1) cs taken = some (taken.set name tag, tail) := by
  unfold fields?
  rw [hname]
  simp only [Option.bind_eq_bind, Option.bind_some, hcolon, hvalue, hend]

/-- A compound is read. -/
theorem compound_of_value {fs : Fields} (hskip : skip cs = '\x7b' :: mid)
    (hvalue : value? (cs.length + 1) cs = some (.compound fs, rest)) : compound? cs = some fs := by
  unfold compound?
  split
  · rw [hvalue]
  · rename_i hopen
    exact absurd hskip (hopen _)

end

end VoxelEdit.Nbt.Text
