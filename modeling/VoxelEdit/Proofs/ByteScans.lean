import VoxelEdit.Proofs.ByteLexer

/-!
# Words, numbers and quoted text on bytes

The scanners of tokens without braces track those of characters (`Tracks`): the cuts they make are all
between characters.
-/

namespace VoxelEdit.ByteLexer

open Text

variable {src front cs : List Char} {c : Char}

/-! ## Quoted text, words and numbers -/

theorem ne_of_not_mem {a : Char} (h : a ∉ cs) : ∀ c ∈ cs, decide (c ≠ a) = true := by
  intro c hc
  exact decide_eq_true fun heq => h (heq ▸ hc)

/-- Quoted text. No byte inside of a character is taken for the closing quote. -/
theorem quoted_tracks (hsrc : src = front ++ '\'' :: cs) :
    Tracks front ('\'' :: cs) (quoted src (between front ('\'' :: cs)))
      (Token.scanQuoted (byteLength front) cs) := by
  have hcoarse : Coarse fun c => c ≠ '\'' := ne_coarse (by decide)
  have hopen : (between front ('\'' :: cs)).skip 1 = between (front ++ ['\'']) cs :=
    skip_one (by decide)
  by_cases hclosed : '\'' ∈ cs
  · obtain ⟨body, tail, rfl, hbody⟩ := List.eq_append_cons_of_mem hclosed
    have hspan : (between (front ++ ['\'']) (body ++ '\'' :: tail)).span (fun c => c ≠ '\'') =
        between (front ++ ['\''] ++ body) ('\'' :: tail) :=
      span_run hcoarse (ne_of_not_mem hbody) (by simp)
    have hslice : slice src (byteLength (front ++ ['\''])) (byteLength (front ++ ['\''] ++ body)) =
        .ok body :=
      slice_of_eq (front ++ ['\'']) ('\'' :: tail) (by simp [hsrc]) rfl (byteLength_append _ _)
    rw [Token.scanQuoted, cut?_append hbody]
    refine ⟨'\'' :: (body ++ ['\'']), by simp, ?_⟩
    simp only [quoted, hopen, hspan, isEmpty_between, offset_between, hslice, ok_bind,
      skip_one (c := '\'') (by decide)]
    simp [pure, Except.pure]
  · -- the run goes on to the end of the text
    have hspan : (between (front ++ ['\'']) (cs ++ [])).span (fun c => c ≠ '\'') =
        between (front ++ ['\''] ++ cs) [] := span_run hcoarse (ne_of_not_mem hclosed) (by simp)
    rw [List.append_nil] at hspan
    rw [Token.scanQuoted, cut?_of_not_mem hclosed]
    simp only [Tracks, quoted, hopen, hspan, isEmpty_between]
    rfl

/-- A word behind a mark. -/
theorem marked_tracks (hsrc : src = front ++ c :: cs) (hc : c.toNat < 128) :
    Tracks front (c :: cs) (marked src (between front (c :: cs)) c)
      (Token.scanMarked (byteLength front) c cs) := by
  have hparts : cs.takeWhile isWord ++ cs.dropWhile isWord = cs := List.takeWhile_append_dropWhile
  have hslice : slice src (byteLength (front ++ [c]))
      (byteLength (front ++ [c] ++ cs.takeWhile isWord)) = .ok (cs.takeWhile isWord) :=
    slice_of_eq (front ++ [c]) (cs.dropWhile isWord) (by simp [hsrc, hparts]) rfl (byteLength_append _ _)
  simp only [marked, Token.scanMarked, skip_one hc, span_between isWord_coarse, offset_between, hslice,
    ok_bind]
  cases hword : cs.takeWhile isWord with
  | nil => rfl
  | cons w word =>
    rw [hword] at hparts
    refine ⟨c :: w :: word, by simpa using hparts.symm, ?_⟩
    simp [pure, Except.pure]

/-- A number. Both of its cuts end where its digits do. -/
theorem number_tracks (hsrc : src = front ++ c :: cs) (hc : c.toNat < 128) :
    Tracks front (c :: cs) (number src (between front (c :: cs)))
      (Token.scanNumber (byteLength front) c cs) := by
  have hparts : cs.takeWhile isDigitOrPoint ++ cs.dropWhile isDigitOrPoint = cs :=
    List.takeWhile_append_dropWhile
  have hsplit : src = front ++ (c :: cs.takeWhile isDigitOrPoint) ++ cs.dropWhile isDigitOrPoint := by
    simp [hsrc, hparts]
  have hdigits : slice src (byteLength (front ++ [c]))
      (byteLength (front ++ [c] ++ cs.takeWhile isDigitOrPoint)) = .ok (cs.takeWhile isDigitOrPoint) :=
    slice_of_eq (front ++ [c]) (cs.dropWhile isDigitOrPoint) (by simp [hsplit]) rfl (byteLength_append _ _)
  have hwhole : slice src (byteLength front)
      (byteLength (front ++ [c] ++ cs.takeWhile isDigitOrPoint)) =
        .ok (c :: cs.takeWhile isDigitOrPoint) :=
    slice_of_eq front (cs.dropWhile isDigitOrPoint) hsplit rfl (by simp)
  by_cases hsign : c = '-' ∧ cs.takeWhile isDigitOrPoint = []
  · -- a sign and nothing behind it
    obtain ⟨rfl, hword⟩ := hsign
    simp only [number, skip_one hc, span_between isDigitOrPoint_coarse, offset_between, hdigits, hwhole,
      ok_bind]
    simp only [Token.scanNumber, hword]
    rfl
  · have hchars : Token.scanNumber (byteLength front) c cs =
        .ok (.number (String.ofList (c :: cs.takeWhile isDigitOrPoint)), cs.dropWhile isDigitOrPoint) := by
      unfold Token.scanNumber
      split
      · rename_i hword
        exact absurd ⟨rfl, hword⟩ hsign
      · rfl
    have htext : c :: cs.takeWhile isDigitOrPoint ≠ ['-'] := by
      simpa only [ne_eq, List.cons.injEq] using hsign
    rw [hchars]
    refine ⟨c :: cs.takeWhile isDigitOrPoint, by simp [hparts], ?_⟩
    simp only [number, skip_one hc, span_between isDigitOrPoint_coarse, offset_between, hdigits, hwhole,
      ok_bind, htext, if_false]
    simp [pure, Except.pure]

/-! ## Names -/

theorem nameSpan_append (cs : List Char) : (Token.nameSpan cs).1 ++ (Token.nameSpan cs).2 = cs := by
  fun_induction Token.nameSpan cs <;> simp_all

/-- A name is as long in bytes as its characters are. -/
theorem nameLength_eq (cs : List Char) :
    nameLength (bytesOf cs) = byteLength (Token.nameSpan cs).1 := by
  induction cs with
  | nil => rfl
  | cons c cs ih =>
    obtain ⟨b, rest, hb, ⟨hc, hnarrow, rfl⟩ | ⟨hwide, hc⟩⟩ := first_byte c cs
    · rw [hb, nameLength, Token.nameSpan, hc, head?_bytesOf isAlpha_coarse, ih]
      dsimp only
      split
      · rw [byteLength_cons, utf8Size_narrow hnarrow, Nat.add_comm]
      · rfl
    · -- neither goes on
      have hbyte : isWord (ofByte b) = false := isWord_wide hwide
      have hchar : isWord c = false := isWord_wide hc
      simp [hb, nameLength, Token.nameSpan, hbyte, hchar, ne_of_wide hwide (a := ':') (by decide),
        ne_of_wide hc (a := ':') (by decide)]

/-- A list of states, which may have no end. -/
def statesText (pos : Nat) (list : List Char) :
    Except PatternError (List (String × String) × List Char) :=
  match cut? ']' list with
  | none => .error (.openStates pos)
  | some (body, tail) => (Token.states pos body).map fun states => (states, tail)

/-- States. The bracket that was found in the rest of the text is at that offset in the whole. -/
theorem bracket_tracks {list : List Char} (hsrc : src = front ++ '[' :: list) :
    Tracks front ('[' :: list) (bracket src (between front ('[' :: list)))
      (statesText (byteLength front) list) := by
  have htail : slice src (byteLength front) (byteLength src) = .ok ('[' :: list) :=
    slice_of_eq front [] (by simp [hsrc]) rfl (by simp [hsrc])
  by_cases hclosed : ']' ∈ list
  · obtain ⟨body, tail, rfl, hbody⟩ := List.eq_append_cons_of_mem hclosed
    have hfront : ']' ∉ '[' :: body := by simp [hbody]
    have hcut : cut? ']' ('[' :: (body ++ ']' :: tail)) = some ('[' :: body, tail) :=
      cut?_append hfront
    have hslice : slice src (byteLength front + 1) (byteLength front + byteLength ('[' :: body)) =
        .ok body :=
      slice_of_eq (front ++ ['[']) (']' :: tail) (by simp [hsrc])
        (by simp [utf8Size_narrow]) (by simp [Nat.add_assoc])
    have hskip : (between front ('[' :: (body ++ ']' :: tail))).skip
        (byteLength front + byteLength ('[' :: body) + 1 - byteLength front) =
          between (front ++ ('[' :: (body ++ [']']))) tail := by
      have hlength : byteLength front + byteLength ('[' :: body) + 1 - byteLength front =
          byteLength ('[' :: (body ++ [']'])) := by
        simp [utf8Size_narrow]
        omega
      rw [hlength, ← skip_between]
      simp
    rw [statesText, cut?_append hbody]
    simp only [bracket, offset_between, htail, ok_bind, hcut, hslice, hskip]
    cases Token.states (byteLength front) body with
    | error cause => rfl
    | ok states => exact ⟨'[' :: (body ++ [']']), by simp, rfl⟩
  · have hcut : cut? ']' ('[' :: list) = none := cut?_of_not_mem (by simp [hclosed])
    rw [statesText, cut?_of_not_mem hclosed]
    simp only [bracket, offset_between, htail, ok_bind, hcut]
    rfl

theorem scanName_states (pos : Nat) {word list : List Char}
    (h : Token.nameSpan cs = (word, '[' :: list)) :
    Token.scanName pos cs = (statesText (pos + byteLength word) list).map
      fun (states, tail) => (.name (String.ofList word) states, tail) := by
  simp only [Token.scanName, h, statesText]
  cases cut? ']' list with
  | none => rfl
  | some parts =>
    dsimp only
    cases Token.states (pos + byteLength word) parts.1 <;> rfl

/-- A name, with states or without. -/
theorem name_tracks (hsrc : src = front ++ cs) :
    Tracks front cs (name src (between front cs)) (Token.scanName (byteLength front) cs) := by
  cases hspan : Token.nameSpan cs with
  | mk word back
  have hcs : cs = word ++ back := by
    rw [← nameSpan_append cs, hspan]
  have hstop : (between front cs).skip (nameLength (between front cs).rest) =
      between (front ++ word) back := by
    have hlength : nameLength (between front cs).rest = byteLength word := by
      rw [between, nameLength_eq, hspan]
    rw [hlength, hcs, skip_between]
  have hword : slice src (byteLength front) (byteLength (front ++ word)) = .ok word :=
    slice_of_eq front back (by simp [hsrc, hcs]) rfl (byteLength_append _ _)
  simp only [name, hstop, offset_between, hword, ok_bind]
  by_cases hstates : back.head? = some '['
  · obtain ⟨list, rfl⟩ : ∃ list, back = '[' :: list := by
      cases back with
      | nil => simp at hstates
      | cons c list => exact ⟨list, by simpa using hstates⟩
    have hpeek : (between (front ++ word) ('[' :: list)).peek? 0 = some '[' :=
      (peek?_between (by decide)).2 hstates
    have hsplit : src = front ++ word ++ '[' :: list := by simp [hsrc, hcs]
    have hlist := (bracket_tracks hsplit).map fun states => Token.name (String.ofList word) states
    have hchars := scanName_states (byteLength front) hspan
    rw [← byteLength_append] at hchars
    rw [hchars]
    simp only [hpeek, if_true]
    rw [hcs]
    exact hlist.append word
  · have hpeek : (between (front ++ word) back).peek? 0 ≠ some '[' :=
      mt (peek?_between (by decide)).1 hstates
    have hchars : Token.scanName (byteLength front) cs = .ok (.name (String.ofList word) [], back) := by
      simp only [Token.scanName, hspan]
      split
      · exact absurd rfl hstates
      · rfl
    rw [hchars]
    simp only [hpeek, if_false]
    exact ⟨word, hcs, rfl⟩

end VoxelEdit.ByteLexer
