import VoxelEdit.Proofs.ByteBraces
import VoxelEdit.Proofs.ByteScans
import VoxelEdit.Proofs.PatternLexing

/-!
# All tokens on bytes

* `scan_tracks`: one token. `tokens_eq`: **the bytes of a text give the tokens its characters give.**
* `Placed`: positions of tokens grow, and a character starts at each.
* `cuts_between_characters`: tokens are read and trees are taken apart without a fault.
-/

namespace VoxelEdit.ByteLexer

open Text

variable {src front cs : List Char} {c : Char}

/-! ## One token -/

/-- What a formula for a place of the palette starts with is seen in the bytes. -/
theorem runtime_iff (hc : c.toNat < 128) :
    (c = 'r' && (between front (c :: cs)).peek? 1 = some 't' &&
      (between front (c :: cs)).peek? 2 = some '\'') = true ↔ ∃ rest, c = 'r' ∧ cs = 't' :: '\'' :: rest := by
  simp only [Bool.and_eq_true, decide_eq_true_eq, peek?_succ hc]
  constructor
  · rintro ⟨⟨rfl, ht⟩, hquote⟩
    rw [peek?_between (by decide)] at ht
    cases cs with
    | nil => exact nomatch ht
    | cons d cs =>
      obtain rfl : d = 't' := by simpa using ht
      rw [peek?_succ (by decide), peek?_between (by decide)] at hquote
      cases cs with
      | nil => exact nomatch hquote
      | cons d cs =>
        obtain rfl : d = '\'' := by simpa using hquote
        exact ⟨cs, rfl, rfl⟩
  · rintro ⟨rest, rfl, rfl⟩
    rw [peek?_succ (by decide), peek?_between (by decide), peek?_between (by decide)]
    exact ⟨⟨rfl, rfl⟩, rfl⟩

/-- A formula for a place of the palette. -/
theorem runtime_tracks {rest : List Char} (hsrc : src = front ++ 'r' :: 't' :: '\'' :: rest) :
    Tracks front ('r' :: 't' :: '\'' :: rest)
      ((quoted src ((between front ('r' :: 't' :: '\'' :: rest)).skip 2)).map
        fun (s, q) => (Token.runtimeQuoted s, q))
      (Token.scanWord (byteLength front) 'r' ('t' :: '\'' :: rest)) := by
  have hskip : (between front ('r' :: 't' :: '\'' :: rest)).skip 2 =
      between (front ++ ['r', 't']) ('\'' :: rest) :=
    skip_between front ['r', 't'] ('\'' :: rest)
  have hsplit : src = front ++ ['r', 't'] ++ '\'' :: rest := by simp [hsrc]
  have hquoted := quoted_tracks hsplit
  have hoffset : byteLength (front ++ ['r', 't']) = byteLength front + 2 := byteLength_append _ _
  rw [hoffset] at hquoted
  rw [hskip]
  exact (hquoted.map Token.runtimeQuoted).append ['r', 't']

/-- A name or a formula, as the next two bytes say. -/
theorem word_tracks (hsrc : src = front ++ c :: cs) (hc : c.toNat < 128) :
    Tracks front (c :: cs)
      (if c = 'r' && (between front (c :: cs)).peek? 1 = some 't' &&
          (between front (c :: cs)).peek? 2 = some '\'' then
        (quoted src ((between front (c :: cs)).skip 2)).map fun (s, q) => (.runtimeQuoted s, q)
      else name src (between front (c :: cs)))
      (Token.scanWord (byteLength front) c cs) := by
  split
  · rename_i hruntime
    obtain ⟨rest, rfl, rfl⟩ := (runtime_iff hc).1 hruntime
    exact runtime_tracks hsrc
  · rename_i hruntime
    have hname : Token.scanWord (byteLength front) c cs = Token.scanName (byteLength front) (c :: cs) := by
      unfold Token.scanWord
      split
      · exact absurd ((runtime_iff hc).2 ⟨_, rfl, rfl⟩) hruntime
      · rfl
    rw [hname]
    exact name_tracks hsrc

/-- A tree. The first brace is open from the first byte on. -/
theorem tree_tracks (hsrc : src = front ++ '\x7b' :: cs) :
    Tracks front ('\x7b' :: cs)
      ((braced src (byteLength front) (bytesOf ('\x7b' :: cs)) (byteLength front) 0 0 none).map
        fun (s, q) => (Token.tree s, q))
      ((Token.braced (byteLength front) cs 1 0 none ['\x7b']).map fun (s, tail) => (.tree s, tail)) := by
  have htracks : Tracks (front ++ ['\x7b']) cs
      (braced src (byteLength front) (bytesOf cs) (byteLength (front ++ ['\x7b'])) 1 0 none)
      (Token.braced (byteLength front) cs 1 0 none ['\x7b']) :=
    braced_tracks (src_push hsrc) rfl (Nat.le_refl 1) IsQuote.of_none
  have hopen : braced src (byteLength front) (bytesOf ('\x7b' :: cs)) (byteLength front) 0 0 none =
      braced src (byteLength front) (bytesOf cs) (byteLength (front ++ ['\x7b'])) 1 0 none := by
    rw [braced_outside, if_neg (by decide), if_pos rfl, if_neg (by decide), byteLength_append]
    rfl
  rw [hopen]
  exact (htracks.append ['\x7b']).map Token.tree

/-- A character no token starts with is refused, and it is the one that is named. -/
theorem foreign_tracks (hsrc : src = front ++ c :: cs) : Tracks front (c :: cs)
    (do
      let tail ← slice src (byteLength front) (byteLength src)
      throw (.refused (.foreignCharacter (byteLength front) (tail.head?.getD '?'))))
    (.error (.foreignCharacter (byteLength front) c) : Except PatternError (Token × List Char)) := by
  have htail : slice src (byteLength front) (byteLength src) = .ok (c :: cs) :=
    slice_of_eq front [] (by simp [hsrc]) rfl (by simp [hsrc])
  rw [htail]
  rfl

theorem mark_tracks (hc : c.toNat < 128) (t : Token) :
    Tracks front (c :: cs) (.ok (t, (between front (c :: cs)).skip 1)) (.ok (t, cs)) := by
  rw [skip_one hc]
  exact ⟨[c], rfl, rfl⟩

/-- The first 128 characters are their own first bytes. -/
theorem scan_narrow (hsrc : src = front ++ c :: cs) (hc : c.toNat < 128) :
    Tracks front (c :: cs) (scan src (between front (c :: cs)) c) (Token.scan (byteLength front) c cs) := by
  unfold scan Token.scan
  by_cases hpercent : c = '%'
  · rw [if_pos hpercent, if_pos hpercent]
    exact mark_tracks hc .percent
  rw [if_neg hpercent, if_neg hpercent]
  by_cases hcolon : c = ':'
  · rw [if_pos hcolon, if_pos hcolon]
    exact mark_tracks hc .colon
  rw [if_neg hcolon, if_neg hcolon]
  by_cases hcomma : c = ','
  · rw [if_pos hcomma, if_pos hcomma]
    exact mark_tracks hc .comma
  rw [if_neg hcomma, if_neg hcomma]
  by_cases hquote : c = '\''
  · rw [if_pos hquote, if_pos hquote]
    subst hquote
    exact (quoted_tracks hsrc).map Token.quoted
  rw [if_neg hquote, if_neg hquote]
  by_cases htree : c = '\x7b'
  · rw [if_pos htree, if_pos htree]
    subst htree
    exact tree_tracks hsrc
  rw [if_neg htree, if_neg htree]
  by_cases hmarked : (c = '#' || c = '@') = true
  · rw [if_pos hmarked, if_pos hmarked]
    exact marked_tracks hsrc hc
  rw [if_neg hmarked, if_neg hmarked]
  by_cases hnumber : (c = '-' || c.isDigit) = true
  · rw [if_pos hnumber, if_pos hnumber]
    exact number_tracks hsrc hc
  rw [if_neg hnumber, if_neg hnumber]
  by_cases hstart : (c.isAlpha || c = '_') = true
  · rw [if_pos hstart, if_pos hstart]
    exact word_tracks hsrc hc
  · have hruntime : ¬ (c = 'r' && (between front (c :: cs)).peek? 1 = some 't' &&
        (between front (c :: cs)).peek? 2 = some '\'') = true := by
      rw [runtime_iff hc]
      rintro ⟨rest, rfl, -⟩
      exact hstart rfl
    rw [if_neg hruntime, if_neg hstart, if_neg hstart]
    exact foreign_tracks hsrc

/-- No token starts with a character past the first 128, nor with a byte past them. -/
theorem scan_wide (hsrc : src = front ++ c :: cs) (hc : 128 ≤ c.toNat) {d : Char} (hd : 128 ≤ d.toNat) :
    Tracks front (c :: cs) (scan src (between front (c :: cs)) d) (Token.scan (byteLength front) c cs) := by
  have hmarks : ∀ a ∈ ['%', ':', ',', '\'', '\x7b', '#', '@', '-', 'r', '_'], a.toNat < 128 := by simp
  have hne {d : Char} (hd : 128 ≤ d.toNat) :
      ∀ a ∈ ['%', ':', ',', '\'', '\x7b', '#', '@', '-', 'r', '_'], d ≠ a :=
    fun a ha => ne_of_wide hd (hmarks a ha)
  simp only [List.forall_mem_cons] at hne
  have hchars : Token.scan (byteLength front) c cs = .error (.foreignCharacter (byteLength front) c) := by
    simp [Token.scan, hne hc, isAlpha_wide hc, isDigit_wide hc]
  have hbytes : scan src (between front (c :: cs)) d = (do
      let tail ← slice src (byteLength front) (byteLength src)
      throw (.refused (.foreignCharacter (byteLength front) (tail.head?.getD '?')))) := by
    simp [scan, hne hd, isAlpha_wide hd, isDigit_wide hd]
  rw [hchars, hbytes]
  exact foreign_tracks hsrc

/-- **One token.** -/
theorem scan_tracks (hsrc : src = front ++ c :: cs) {b : UInt8} {rest : List UInt8}
    (hb : bytesOf (c :: cs) = b :: rest) :
    Tracks front (c :: cs) (scan src (between front (c :: cs)) (ofByte b))
      (Token.scan (byteLength front) c cs) := by
  obtain ⟨b', rest', hb', hfirst⟩ := first_byte c cs
  obtain ⟨rfl, rfl⟩ := List.cons.inj (hb.symm.trans hb')
  rcases hfirst with ⟨hbyte, hc, -⟩ | ⟨hbyte, hc⟩
  · rw [hbyte]
    exact scan_narrow hsrc hc
  · exact scan_wide hsrc hc hbyte

/-- A token takes some characters, and the next one is looked for behind them. -/
theorem scan_takes (hsrc : src = front ++ c :: cs) {b : UInt8} {rest : List UInt8}
    (hb : bytesOf (c :: cs) = b :: rest) {t : Token} {tail : List Char}
    (hscan : Token.scan (byteLength front) c cs = .ok (t, tail)) :
    ∃ used, used ≠ [] ∧ c :: cs = used ++ tail ∧
      byteLength front + (byteLength (c :: cs) - byteLength tail) = byteLength (front ++ used) ∧
      scan src (between front (c :: cs)) (ofByte b) = .ok (t, between (front ++ used) tail) := by
  have htracks := scan_tracks hsrc hb
  rw [hscan] at htracks
  obtain ⟨used, hused, hbytes⟩ := htracks
  refine ⟨used, ?_, hused, ?_, hbytes⟩
  · rintro rfl
    have hlength : tail.length ≤ cs.length := Token.scan_length hscan
    rw [← List.nil_append tail, ← hused, List.length_cons] at hlength
    exact absurd hlength (Nat.not_succ_le_self _)
  · rw [hused, byteLength_append, byteLength_append]
    omega

theorem isGap_wide (h : 128 ≤ c.toNat) : Pattern.isGap c = false := Pattern.isGap_false (by omega)

theorem isGap_narrow (h : Pattern.isGap c = true) : c.toNat < 128 := by
  by_contra hwide
  rw [isGap_wide (Nat.le_of_not_lt hwide)] at h
  exact Bool.false_ne_true h

/-- **All tokens.** Each takes at least one character, so the rounds do not run out. The induction is
on the rounds, for any place between characters. -/
theorem tokens_eq {rounds : Nat} (hsrc : src = front ++ cs) (hrounds : byteLength cs < rounds) :
    tokens src rounds (between front cs) = lift (Token.listFrom (byteLength front) cs) := by
  induction rounds generalizing front cs with
  | zero => exact absurd hrounds (Nat.not_lt_zero _)
  | succ rounds ih =>
    cases cs with
    | nil =>
      rw [Token.listFrom]
      rfl
    | cons c cs =>
      obtain ⟨b, rest, hb, -⟩ := first_byte c cs
      have hplace : (between front (c :: cs)).rest = b :: rest := hb
      have hclass : Pattern.isGap (ofByte b) = Pattern.isGap c := by
        simpa [hb] using head?_bytesOf ⟨false, fun _ => isGap_wide⟩ (c :: cs)
      cases hgap : Pattern.isGap c with
      | true =>
        have hc : c.toNat < 128 := isGap_narrow hgap
        have hmore : byteLength cs < rounds := by
          rw [byteLength_cons, utf8Size_narrow hc] at hrounds
          omega
        have hrest := ih (src_push hsrc) hmore
        rw [Pattern.listFrom_gap hgap, tokens, hplace]
        simp only [hclass, hgap, if_true, skip_one hc]
        rw [hrest, byteLength_append]
        simp [utf8Size_narrow hc]
      | false =>
        rw [Pattern.listFrom_cons hgap, tokens, hplace]
        simp only [hclass, hgap, Bool.false_eq_true, if_false]
        cases hscan : Token.scan (byteLength front) c cs with
        | error cause =>
          have htracks := scan_tracks hsrc hb
          rw [hscan] at htracks
          have hbytes : scan src (between front (c :: cs)) (ofByte b) = .error (.refused cause) := htracks
          rw [hbytes]
          rfl
        | ok r =>
          obtain ⟨t, tail⟩ := r
          obtain ⟨used, hne, hused, hnext, hbytes⟩ := scan_takes hsrc hb hscan
          have hpos := byteLength_pos hne
          rw [hused, byteLength_append] at hrounds
          have hsplit : src = front ++ used ++ tail := by simp [hsrc, hused]
          have hrest := ih hsplit (by omega)
          rw [hbytes]
          simp only [ok_bind, hrest, offset_between]
          simp only [lift, bind, Except.bind, hnext]
          cases Token.listFrom (byteLength (front ++ used)) tail with
          | error cause => rfl
          | ok ts => rfl

/-! ## Positions -/

/-- A character of the text starts at the offset `n`. -/
def StartsAt (n : Nat) (src : List Char) : Prop :=
  ∃ front c back, src = front ++ c :: back ∧ byteLength front = n

/-- Tokens from `start` on, one behind the other, each at the start of a character. -/
structure Placed (src : List Char) (start : Nat) (ts : List Spanned) : Prop where
  behind : ∀ s ∈ ts, start ≤ s.pos
  increasing : (ts.map Spanned.pos).Pairwise (· < ·)
  starts : ∀ s ∈ ts, StartsAt s.pos src

section

variable {start next : Nat} {ts : List Spanned}

theorem Placed.mono (h : Placed src next ts) (hnext : start ≤ next) : Placed src start ts where
  behind s hs := Nat.le_trans hnext (h.behind s hs)
  increasing := h.increasing
  starts := h.starts

theorem Placed.cons (h : Placed src next ts) (hnext : start < next) (hstart : StartsAt start src)
    (t : Token) : Placed src start (⟨start, t⟩ :: ts) where
  behind := by
    intro s hs
    rcases List.mem_cons.1 hs with rfl | hs
    · exact Nat.le_refl start
    · exact Nat.le_trans (Nat.le_of_lt hnext) (h.behind s hs)
  increasing := by
    refine List.pairwise_cons.2 ⟨?_, h.increasing⟩
    intro n hn
    obtain ⟨s, hs, rfl⟩ := List.mem_map.1 hn
    exact Nat.lt_of_lt_of_le hnext (h.behind s hs)
  starts := by
    intro s hs
    rcases List.mem_cons.1 hs with rfl | hs
    · exact hstart
    · exact h.starts s hs

/-- **Where the tokens of a text are.** -/
theorem listFrom_placed (hsrc : src = front ++ cs) (h : Token.listFrom (byteLength front) cs = .ok ts) :
    Placed src (byteLength front) ts := by
  generalize hstart : byteLength front = start at h
  fun_induction Token.listFrom start cs generalizing front ts with
  | case1 start =>
    obtain rfl : [] = ts := Except.ok.inj h
    exact ⟨List.forall_mem_nil _, .nil, List.forall_mem_nil _⟩
  | case2 start c cs hgap ih =>
    have hnext : byteLength (front ++ [c]) = start + 1 := by
      rw [byteLength_append, hstart, byteLength_cons, utf8Size_narrow (isGap_narrow hgap)]
      rfl
    exact (ih (src_push hsrc) hnext h).mono (Nat.le_succ start)
  | case3 | case4 => cases h
  | case5 start c cs hgap t tail hscan hlength rest hrest ih =>
    -- the other tokens are behind what this one took, which is not nothing
    subst hstart
    obtain ⟨b, bytes, hb, -⟩ := first_byte c cs
    obtain ⟨used, hne, hused, hnext, -⟩ := scan_takes hsrc hb hscan
    obtain rfl : ⟨_, t⟩ :: rest = ts := Except.ok.inj h
    have hsplit : src = front ++ used ++ tail := by simp [hsrc, hused]
    have hrest := ih hsplit hnext.symm hrest
    have hpos : 0 < byteLength used := byteLength_pos hne
    refine hrest.cons ?_ ⟨front, c, cs, hsrc, rfl⟩ t
    rw [hnext, byteLength_append]
    omega

end

/-! ## A whole text -/

/-- **Reading a text as tokens keeps to its characters.** With more rounds than the text has bytes, a
scan of the bytes ends, and gives the tokens or the refusal that the characters give: each cut is in
range and between two characters, and no brace is closed with none open. The positions of the tokens
grow, and a character starts at each. The text of a tree stands in braces, and its compounds are cut
out between characters, too. -/
theorem cuts_between_characters (text : String) :
    (∀ rounds, text.utf8ByteSize < rounds →
      tokens text.toList rounds ⟨utf8 text, 0⟩ = lift (Token.ofText text)) ∧
    ∀ ts, Token.ofText text = .ok ts →
      (ts.map Spanned.pos).Pairwise (· < ·) ∧
      ∀ s ∈ ts, StartsAt s.pos text.toList ∧ ∀ tree, s.token = .tree tree →
        ∃ inner, tree.toList = inBraces inner ∧
          parts tree.toList = .ok (Descriptor.parts tree.toList) := by
  have hwhole : text.toList = [] ++ text.toList := rfl
  constructor
  · intro rounds hrounds
    rw [← byteLength_toList] at hrounds
    have htokens := tokens_eq hwhole hrounds
    rw [utf8_eq_bytesOf]
    exact htokens
  · intro ts hts
    have hplaced : Placed text.toList 0 ts := listFrom_placed hwhole hts
    refine ⟨hplaced.increasing, ?_⟩
    intro s hs
    refine ⟨hplaced.starts s hs, ?_⟩
    obtain ⟨pos, t⟩ := s
    rintro tree rfl
    -- a tree among the tokens is a compound, which starts and ends with a brace
    obtain ⟨inner, -, hinner⟩ : IsCompound tree.toList := Token.ofText_trees hts hs
    refine ⟨inner, hinner, ?_⟩
    rw [hinner]
    exact parts_inBraces inner

/-- Behind the backslash one of the two bytes of a character is passed over. -/
theorem cuts_between_characters_escaped :
    tokens "rt'é' \x7b\x7ba:\"\\é\x7d\"\x7d\x7d".toList 20
        ⟨utf8 "rt'é' \x7b\x7ba:\"\\é\x7d\"\x7d\x7d", 0⟩ =
      .ok [⟨0, .runtimeQuoted "é"⟩, ⟨7, .tree "\x7b\x7ba:\"\\é\x7d\"\x7d\x7d"⟩] ∧
    parts "\x7b\x7ba:\"\\é\x7d\"\x7d\x7d".toList =
      .ok ["\x7ba:\"\\é\x7d\"\x7d".toList] := by
  have hts : Token.ofText "rt'é' \x7b\x7ba:\"\\é\x7d\"\x7d\x7d" =
      .ok [⟨0, .runtimeQuoted "é"⟩, ⟨7, .tree "\x7b\x7ba:\"\\é\x7d\"\x7d\x7d"⟩] := by
    decide +kernel
  obtain ⟨htokens, hplaced⟩ := cuts_between_characters "rt'é' \x7b\x7ba:\"\\é\x7d\"\x7d\x7d"
  have hbytes := htokens 20 (by decide)
  obtain ⟨-, htrees⟩ := hplaced _ hts
  obtain ⟨-, htree⟩ := htrees ⟨7, .tree "\x7b\x7ba:\"\\é\x7d\"\x7d\x7d"⟩ (by simp)
  obtain ⟨-, -, hparts⟩ := htree _ rfl
  rw [hts] at hbytes
  refine ⟨hbytes, ?_⟩
  rw [hparts]
  exact congrArg Except.ok (by decide)

end VoxelEdit.ByteLexer
