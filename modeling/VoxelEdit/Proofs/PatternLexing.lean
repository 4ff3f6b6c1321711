import VoxelEdit.Proofs.CharacterClasses
import VoxelEdit.Proofs.PatternGrammar

/-!
# Words become tokens

* `scan_word`: a word is scanned as its token, if what comes next may stand behind it.
* `listFrom_spaced`: **the tokens of a pattern are those of its words**, wherever they stand.
-/

namespace VoxelEdit.Pattern

open Number Text

/-! ## States -/

section

variable {s : StateText} {states : List StateText} {pos : Nat}

/-- No mark stands in a text that is free of it, with blanks around. -/
theorem Padded.not_mem {p : Padded} {c : Char} (hc : isBlank c = false) (hcore : c ∉ p.core) :
    c ∉ p.chars := by
  intro hmem
  rcases List.mem_append.1 hmem with hfront | hmem
  · exact absurd (p.blankFront c hfront) (by rw [hc]; decide)
  rcases List.mem_append.1 hmem with hmem | hback
  · exact hcore hmem
  · exact absurd (p.blankBack c hback) (by rw [hc]; decide)

theorem Padded.trim_chars (p : Padded) : trim p.chars = p.core :=
  trim_padded p.blankFront p.blankBack p.neat

theorem StateText.free (s : StateText) {c : Char} (hc : c ∈ [',', '=', ']']) :
    c ∉ s.key.core ∧ c ∉ s.value.core :=
  ⟨fun h => s.plain c (List.mem_append_left _ h) hc, fun h => s.plain c (List.mem_append_right _ h) hc⟩

/-- A state has no comma and no closing bracket. -/
theorem StateText.not_mem (s : StateText) {c : Char} (hc : c = ',' ∨ c = ']') : c ∉ s.chars := by
  have hblank : isBlank c = false := by rcases hc with rfl | rfl <;> decide
  have hmarks : c ∈ [',', '=', ']'] := by rcases hc with rfl | rfl <;> decide
  have hequals : c ≠ '=' := by rcases hc with rfl | rfl <;> decide
  intro hmem
  rcases List.mem_append.1 hmem with hkey | hmem
  · exact Padded.not_mem hblank (s.free hmarks).1 hkey
  rcases List.mem_cons.1 hmem with heq | hvalue
  · exact hequals heq
  · exact Padded.not_mem hblank (s.free hmarks).2 hvalue

/-- Trimming keeps the equals sign of a state. -/
theorem StateText.trim_chars (s : StateText) : trim s.chars =
    s.key.chars.dropWhile isBlank ++ '=' :: s.value.chars.rdropWhile isBlank :=
  trim_around (by decide)

/-- **A state is read as its key and its value.** -/
theorem state_trim (s : StateText) : Token.state pos (trim s.chars) = .ok s.pair := by
  have hkey : '=' ∉ s.key.chars.dropWhile isBlank := fun h =>
    Padded.not_mem (by decide) (s.free (by decide)).1 ((List.dropWhile_sublist _).mem h)
  unfold Token.state
  rw [s.trim_chars, cut?_append hkey]
  dsimp only
  rw [trim_dropWhile, trim_rdropWhile, Padded.trim_chars, Padded.trim_chars]
  rfl

theorem trim_ne_nil (s : StateText) : (trim s.chars).isEmpty = false := by
  rw [s.trim_chars]
  exact List.isEmpty_eq_false_iff.2 (List.append_ne_nil_of_right_ne_nil _ (List.cons_ne_nil _ _))

/-- **States between commas are read in order.** -/
theorem states_intercalate (hne : states ≠ []) :
    Token.states pos (List.intercalate [','] (states.map StateText.chars)) =
      .ok (states.map StateText.pair) := by
  have hpieces : pieces ',' (List.intercalate [','] (states.map StateText.chars)) =
      states.map StateText.chars := by
    refine pieces_intercalate (mt List.map_eq_nil_iff.1 hne) fun p hp => ?_
    obtain ⟨s, -, rfl⟩ := List.mem_map.1 hp
    exact s.not_mem (.inl rfl)
  have hfilter : ((states.map StateText.chars).map trim).filter (fun p => !p.isEmpty) =
      states.map fun s => trim s.chars := by
    rw [List.map_map]
    refine List.filter_eq_self.2 fun p hp => ?_
    obtain ⟨s, -, rfl⟩ := List.mem_map.1 hp
    show (!(trim s.chars).isEmpty) = true
    rw [trim_ne_nil]
    rfl
  unfold Token.states
  rw [hpieces, hfilter]
  clear hne hpieces hfilter
  induction states with
  | nil => rfl
  | cons s states ih =>
    rw [List.map_cons, List.mapM_cons, state_trim, ih]
    rfl

end

/-! ## Names -/

section

variable {c : Char} {cs rest : List Char} {pos : Nat}

theorem nameSpan_run (hcs : ∀ c ∈ cs, isWord c = true) :
    Token.nameSpan (cs ++ rest) = (cs ++ (Token.nameSpan rest).1, (Token.nameSpan rest).2) := by
  induction cs with
  | nil => rfl
  | cons c cs ih =>
    have hc : isWord c = true := hcs c List.mem_cons_self
    rw [List.cons_append, Token.nameSpan_cons hc, ih fun a ha => hcs a (List.mem_cons_of_mem c ha)]
    rfl

/-- A name ends where no word goes on, and no colon with a letter behind it. -/
def NameEnds (rest : List Char) : Prop :=
  ∀ c cs, rest = c :: cs → isWord c = false ∧ (c = ':' → ∀ a ∈ cs.head?, a.isAlpha = false)

theorem nameSpan_ends (h : NameEnds rest) : Token.nameSpan rest = ([], rest) := by
  cases rest with
  | nil => rfl
  | cons c cs =>
    obtain ⟨hword, hcolon⟩ := h c cs rfl
    have hsep : (c = ':' && (cs.head?.map Char.isAlpha).getD false) = false := by
      by_cases hc : c = ':'
      · cases cs with
        | nil => exact Bool.and_false _
        | cons a cs =>
          have ha : a.isAlpha = false := hcolon hc a rfl
          show (decide (c = ':') && a.isAlpha) = false
          rw [ha, Bool.and_false]
      · rw [decide_eq_false hc]
        rfl
    unfold Token.nameSpan
    dsimp only
    rw [hsep, hword]
    rfl

/-- **A name is read up to its end.** -/
theorem nameSpan_chars (x : NameText) (h : NameEnds rest) :
    Token.nameSpan (x.chars ++ rest) = (x.chars, rest) := by
  cases x with
  | plain x =>
    show Token.nameSpan (x.chars ++ rest) = (x.chars, rest)
    rw [nameSpan_run x.isWord, nameSpan_ends h, List.append_nil]
  | within space x hx =>
    have hcolon : Token.nameSpan (':' :: (x.chars ++ rest)) = (':' :: x.chars, rest) := by
      have hletter : (':' = ':' && ((x.chars ++ rest).head?.map Char.isAlpha).getD false) = true := hx
      unfold Token.nameSpan
      dsimp only
      rw [hletter, nameSpan_run x.isWord, nameSpan_ends h, List.append_nil]
      rfl
    show Token.nameSpan ((space.chars ++ ':' :: x.chars) ++ rest) = (space.chars ++ ':' :: x.chars, rest)
    rw [List.append_assoc, List.cons_append, nameSpan_run space.isWord, hcolon]

end

/-! ## One word -/

section

variable {c : Char} {cs rest : List Char} {pos : Nat}

/-- What may come behind a word. -/
def Word.Stops : Word → List Char → Prop
  | .number _, rest => ∀ c ∈ rest.head?, isDigitOrPoint c = false
  | .name _ _, rest => NameEnds rest ∧ rest.head? ≠ some '[' ∧ rest.head? ≠ some '\''
  | _, _ => True

theorem scan_number (hc : c = '-' ∨ c.isDigit = true) :
    Token.scan pos c cs = Token.scanNumber pos c cs := by
  have hcode : c.toNat = 45 ∨ 48 ≤ c.toNat ∧ c.toNat ≤ 57 := by
    rw [char_eq_iff, isDigit_iff] at hc
    exact hc
  have hne (d : Char) (hd : d.toNat ≤ 44 ∨ 58 ≤ d.toNat) : c ≠ d := by
    rw [ne_eq, char_eq_iff]
    omega
  have hmarked : (c = '#' || c = '@') = false := by
    rw [decide_eq_false (hne '#' (by decide)), decide_eq_false (hne '@' (by decide))]
    rfl
  have hnumber : (c = '-' || c.isDigit) = true := by
    rcases hc with rfl | hdigit
    · rfl
    · rw [hdigit, Bool.or_true]
  unfold Token.scan
  rw [if_neg (hne _ (by decide)), if_neg (hne _ (by decide)), if_neg (hne _ (by decide)),
    if_neg (hne _ (by decide)), if_neg (hne _ (by decide)), hmarked, hnumber]
  rfl

theorem scan_start (hc : (c.isAlpha || c = '_') = true) :
    Token.scan pos c cs = Token.scanWord pos c cs := by
  have hcode := isNameStart_iff.1 hc
  have hne (d : Char) (hd : d.toNat ≤ 64 ∨ d.toNat = 123) : c ≠ d := by
    rw [ne_eq, char_eq_iff]
    omega
  have hmarked : (c = '#' || c = '@') = false := by
    rw [decide_eq_false (hne '#' (by decide)), decide_eq_false (hne '@' (by decide))]
    rfl
  have hnumber : (c = '-' || c.isDigit) = false := by
    have hdigit : c.isDigit = false := by
      rw [← Bool.not_eq_true, isDigit_iff]
      omega
    rw [decide_eq_false (hne '-' (by decide)), hdigit]
    rfl
  unfold Token.scan
  rw [if_neg (hne _ (by decide)), if_neg (hne _ (by decide)), if_neg (hne _ (by decide)),
    if_neg (hne _ (by decide)), if_neg (hne _ (by decide)), hmarked, hnumber, if_pos hc]
  rfl

/-- A decimal starts with a digit, or with a minus sign and something behind it. -/
theorem Decimal.exists_chars (d : Decimal) : ∃ c cs, d.chars = c :: cs ∧
    (c = '-' ∧ cs ≠ [] ∨ c.isDigit = true) ∧ ∀ a ∈ cs, isDigitOrPoint a = true := by
  have hdigits (n : Numeral) : ∀ a ∈ n.digits, isDigitOrPoint a = true := fun a ha =>
    isDigitOrPoint_of_digit (n.digit a ha)
  have hbody : ∀ a ∈ d.whole.digits ++ fractionChars d.fraction, isDigitOrPoint a = true := by
    intro a ha
    rcases List.mem_append.1 ha with hwhole | hfraction
    · exact hdigits d.whole a hwhole
    · cases hd : d.fraction with
      | none =>
        rw [hd] at hfraction
        exact nomatch hfraction
      | some n =>
        rw [hd] at hfraction
        rcases List.mem_cons.1 hfraction with rfl | hn
        · decide
        · exact hdigits n a hn
  obtain ⟨a, as, hwhole⟩ := List.exists_cons_of_ne_nil d.whole.nonempty
  rw [hwhole] at hbody
  unfold Decimal.chars
  rw [hwhole]
  cases d.negative with
  | true => exact ⟨_, _, rfl, .inl ⟨rfl, List.cons_ne_nil _ _⟩, hbody⟩
  | false =>
    refine ⟨_, _, rfl, .inr (d.whole.digit a (hwhole ▸ List.mem_cons_self)), fun b hb => ?_⟩
    exact hbody b (List.mem_cons_of_mem a hb)

/-- **A decimal is read up to its end.** -/
theorem scanNumber_chars (hc : c = '-' ∧ cs ≠ [] ∨ c.isDigit = true)
    (hcs : ∀ a ∈ cs, isDigitOrPoint a = true) (hrest : ∀ a ∈ rest.head?, isDigitOrPoint a = false) :
    Token.scanNumber pos c (cs ++ rest) = .ok (.number (String.ofList (c :: cs)), rest) := by
  unfold Token.scanNumber
  rw [takeWhile_run hcs hrest, dropWhile_run hcs hrest]
  split
  · rcases hc with ⟨-, hne⟩ | hdigit
    · exact absurd rfl hne
    · exact absurd hdigit (by decide)
  · rfl

/-- What does not go on with a quote is no formula for a place of the palette. -/
theorem scanWord_name (h : (Token.nameSpan (c :: cs)).2.head? ≠ some '\'') :
    Token.scanWord pos c cs = Token.scanName pos (c :: cs) := by
  unfold Token.scanWord
  split
  · exact absurd rfl h
  · rfl

/-- Behind a name stand its states in a bracket, or what comes next. -/
theorem statesChars_cases (states : List StateText) (rest : List Char) :
    states = [] ∧ statesChars states ++ rest = rest ∨ states ≠ [] ∧ statesChars states ++ rest =
      '[' :: (List.intercalate [','] (states.map StateText.chars) ++ ']' :: rest) := by
  cases states with
  | nil => exact .inl ⟨rfl, rfl⟩
  | cons s states =>
    refine .inr ⟨List.cons_ne_nil s states, ?_⟩
    show '[' :: ((List.intercalate [','] ((s :: states).map StateText.chars) ++ [']']) ++ rest) = _
    rw [List.append_assoc]
    rfl

/-- A name ends before its states. -/
theorem nameSpan_states (x : NameText) (states : List StateText) (hrest : NameEnds rest) :
    Token.nameSpan (x.chars ++ (statesChars states ++ rest)) =
      (x.chars, statesChars states ++ rest) := by
  refine nameSpan_chars x ?_
  rcases statesChars_cases states rest with ⟨-, hstates⟩ | ⟨-, hstates⟩
  · rwa [hstates]
  · rw [hstates]
    rintro a as ⟨⟩
    exact ⟨by decide, fun h => absurd h (by decide)⟩

/-- **A name is scanned with its states.** -/
theorem scanName_chars (x : NameText) (states : List StateText) (hrest : NameEnds rest)
    (hopen : rest.head? ≠ some '[') : Token.scanName pos (x.chars ++ (statesChars states ++ rest)) =
      .ok ((Word.name x states).token, rest) := by
  unfold Token.scanName
  rw [nameSpan_states x states hrest]
  rcases statesChars_cases states rest with ⟨hnil, hstates⟩ | ⟨hne, hstates⟩
  · rw [hstates, hnil]
    dsimp only
    split
    · exact absurd rfl hopen
    · rfl
  · have hclose : ']' ∉ List.intercalate [','] (states.map StateText.chars) := by
      refine not_mem_intercalate (by decide) fun p hp => ?_
      obtain ⟨s, -, rfl⟩ := List.mem_map.1 hp
      exact s.not_mem (.inr rfl)
    rw [hstates]
    dsimp only
    split
    · rename_i tail htail
      obtain rfl := (List.cons.inj htail).2
      rw [cut?_append hclose]
      dsimp only
      rw [states_intercalate hne]
      rfl
    · rename_i hother
      exact absurd rfl (hother _)

theorem scanQuoted_chars (q : Quote) :
    Token.scanQuoted pos (q.chars ++ '\'' :: rest) = .ok (q.text, rest) := by
  unfold Token.scanQuoted
  rw [cut?_append q.unquoted]
  rfl

/-- A name starts with a letter or an underscore. -/
theorem NameText.exists_chars (x : NameText) :
    ∃ c cs, x.chars = c :: cs ∧ (c.isAlpha || c = '_') = true := by
  cases x with
  | plain x => exact ⟨_, _, rfl, x.starts⟩
  | within space x h => exact ⟨_, _, rfl, space.starts⟩

theorem isGap_iff {c : Char} :
    isGap c = true ↔ c.toNat = 32 ∨ c.toNat = 9 ∨ c.toNat = 10 ∨ c.toNat = 13 := by
  simp only [isGap, Bool.or_eq_true, decide_eq_true_eq, char_eq_iff, Char.reduceToNat, or_assoc]

/-- What starts a number or a name is no gap. -/
theorem isGap_false (hc : 45 ≤ c.toNat) : isGap c = false := by
  rw [← Bool.not_eq_true, isGap_iff]
  omega

/-- **A word is scanned as its token**, where what comes next may stand behind it. -/
theorem scan_word (w : Word) (h : w.Stops rest) : ∃ c cs, w.chars = c :: cs ∧ isGap c = false ∧
    ∀ pos, Token.scan pos c (cs ++ rest) = .ok (w.token, rest) := by
  cases w with
  | number d =>
    obtain ⟨c, cs, hd, hc, hcs⟩ := d.exists_chars
    have hstart : c = '-' ∨ c.isDigit = true := hc.imp_left And.left
    refine ⟨c, cs, hd, isGap_false ?_, fun pos => ?_⟩
    · rw [char_eq_iff, isDigit_iff] at hstart
      simp only [Char.reduceToNat] at hstart
      omega
    · rw [scan_number hstart, scanNumber_chars hc hcs h]
      show _ = Except.ok (Token.number (String.ofList d.chars), rest)
      rw [hd]
  | quoted q =>
    refine ⟨_, _, rfl, by decide, fun pos => ?_⟩
    rw [List.append_assoc]
    show (Token.scanQuoted pos (q.chars ++ '\'' :: rest)).map _ = _
    rw [scanQuoted_chars]
    rfl
  | runtimeQuoted q =>
    refine ⟨_, _, rfl, by decide, fun pos => ?_⟩
    have hquote : 't' :: '\'' :: (q.chars ++ ['\'']) ++ rest = 't' :: '\'' :: (q.chars ++ '\'' :: rest) := by
      rw [List.cons_append, List.cons_append, List.append_assoc]
      rfl
    rw [hquote]
    show (Token.scanQuoted (pos + 2) (q.chars ++ '\'' :: rest)).map _ = _
    rw [scanQuoted_chars]
    rfl
  | name x states =>
    obtain ⟨c, cs, hx, hc⟩ := x.exists_chars
    obtain ⟨hends, hopen, hquote⟩ := h
    refine ⟨c, cs ++ statesChars states, ?_, isGap_false ?_, fun pos => ?_⟩
    · show x.chars ++ statesChars states = _
      rw [hx]
      rfl
    · rw [isNameStart_iff] at hc
      omega
    · have hname : Token.scanName pos (x.chars ++ (statesChars states ++ rest)) = _ :=
        scanName_chars x states hends hopen
      have hspan : (Token.nameSpan (x.chars ++ (statesChars states ++ rest))).2.head? ≠ some '\'' := by
        rw [nameSpan_states x states hends]
        rcases statesChars_cases states rest with ⟨-, hstates⟩ | ⟨-, hstates⟩
        · rwa [hstates]
        · rw [hstates]
          exact fun h => absurd (Option.some.inj h) (by decide)
      rw [hx, List.cons_append, ← List.append_assoc] at hname hspan
      rw [scan_start hc, scanWord_name hspan, hname]
  | percent | colon | comma => exact ⟨_, _, rfl, by decide, fun pos => rfl⟩

end

/-! ## Words side by side -/

section

variable {rest : List Char} {ws : List Word}

theorem Word.exists_cons (w : Word) : ∃ c cs, w.chars = c :: cs := by
  cases w with
  | number d =>
    obtain ⟨c, cs, hd, -, -⟩ := d.exists_chars
    exact ⟨c, cs, hd⟩
  | name x states =>
    obtain ⟨c, cs, hx, -⟩ := x.exists_chars
    exact ⟨c, cs ++ statesChars states, congrArg (· ++ statesChars states) hx⟩
  | quoted | runtimeQuoted | percent | colon | comma => exact ⟨_, _, rfl⟩

/-- The next character is a gap or starts the next word. -/
theorem spaced_head (h : Spaced isGap (ws.map Word.chars) rest) {c : Char} (hc : c ∈ rest.head?) :
    isGap c = true ∨ ∃ w, ws.head? = some w ∧ w.chars.head? = some c := by
  have hne : ∀ p ∈ (ws.map Word.chars).head?, p ≠ [] := by
    intro p hp
    rw [List.head?_map] at hp
    obtain ⟨w, -, rfl⟩ := Option.map_eq_some_iff.1 hp
    obtain ⟨c, cs, hw⟩ := w.exists_cons
    exact hw ▸ List.cons_ne_nil c cs
  refine (h.head?_cases hne hc).imp_right ?_
  rintro ⟨p, hp, hpc⟩
  rw [List.head?_map] at hp
  obtain ⟨w, hw, rfl⟩ := Option.map_eq_some_iff.1 hp
  exact ⟨w, hw, hpc⟩

/-- Before a mark the next character is a gap or the mark. -/
theorem spaced_mark (h : Spaced isGap (ws.map Word.chars) rest) (hws : ∀ w ∈ ws.head?, w.IsMark)
    {c : Char} (hc : c ∈ rest.head?) : isGap c = true ∨ c = '%' ∨ c = ':' ∨ c = ',' := by
  refine (spaced_head h hc).imp_right ?_
  rintro ⟨w, hw, hwc⟩
  have hmark := hws w hw
  cases w with
  | percent | colon | comma => exact Option.some.inj hwc ▸ by decide
  | number | quoted | runtimeQuoted | name => exact hmark.elim

/-- What follows a colon does not start with a letter. -/
theorem head_not_alpha {w : Word} (hw : Word.colon.Follows w) {c : Char}
    (hc : w.chars.head? = some c) : c.isAlpha = false := by
  cases w with
  | number d =>
    obtain ⟨a, cs, hd, hstart, -⟩ := d.exists_chars
    have hca : d.chars.head? = some c := hc
    rw [hd] at hca
    obtain rfl := Option.some.inj hca
    rcases hstart with ⟨rfl, -⟩ | hdigit
    · decide
    · rw [isDigit_iff] at hdigit
      rw [← Bool.not_eq_true, isAlpha_iff]
      omega
  | quoted | percent | colon | comma => exact Option.some.inj hc ▸ by decide
  | runtimeQuoted | name => exact hw.elim

/-- No letter follows directly on a colon. -/
theorem colon_not_alpha {cs : List Char} (h : Spaced isGap (ws.map Word.chars) (':' :: cs))
    (hws : ∀ w ∈ ws.head?, w.IsMark) (hchain : ws.IsChain Word.Follows) :
    ∀ a ∈ cs.head?, a.isAlpha = false := by
  intro a ha
  cases ws with
  | nil => exact absurd (h ':' List.mem_cons_self) (by decide)
  | cons w ws =>
    obtain ⟨gap, rest, heq, hgap, hrest⟩ := h
    have hmark := hws w rfl
    cases gap with
    | cons c gap => exact absurd ((List.cons.inj heq).1 ▸ hgap c List.mem_cons_self) (by decide)
    | nil =>
      cases w with
      | colon =>
        -- the text behind it starts with the word after the colon, or a gap
        obtain rfl : cs = rest := (List.cons.inj heq).2
        rcases spaced_head hrest ha with hspace | ⟨v, hv, hva⟩
        · rw [isGap_iff] at hspace
          rw [← Bool.not_eq_true, isAlpha_iff]
          omega
        · exact head_not_alpha ((List.isChain_cons.1 hchain).1 v hv) hva
      | percent => exact absurd (List.cons.inj heq).1 (by decide)
      | comma => exact absurd (List.cons.inj heq).1 (by decide)
      | number | quoted | runtimeQuoted | name => exact hmark.elim

/-- A name ends before a mark. -/
theorem nameEnds_mark (h : Spaced isGap (ws.map Word.chars) rest) (hws : ∀ w ∈ ws.head?, w.IsMark)
    (hchain : ws.IsChain Word.Follows) : NameEnds rest := by
  rintro c cs rfl
  refine ⟨?_, ?_⟩
  · rcases spaced_mark h hws rfl with hgap | rfl | rfl | rfl
    · rw [isGap_iff] at hgap
      rw [← Bool.not_eq_true, isWord_iff]
      omega
    · decide
    · decide
    · decide
  · rintro rfl
    exact colon_not_alpha h hws hchain

/-- **What comes next may stand behind a word.** -/
theorem Word.stops {w : Word} (h : Spaced isGap (ws.map Word.chars) rest)
    (hchain : (w :: ws).IsChain Word.Follows) : w.Stops rest := by
  obtain ⟨hfollows, hws⟩ := List.isChain_cons.1 hchain
  cases w with
  | number d =>
    intro c hc
    rcases spaced_mark h hfollows hc with hgap | rfl | rfl | rfl
    · rw [isGap_iff] at hgap
      rw [← Bool.not_eq_true, isDigitOrPoint_iff]
      omega
    · decide
    · decide
    · decide
  | name x states =>
    have hne (c : Char) (hc : isGap c = false ∧ c ≠ '%' ∧ c ≠ ':' ∧ c ≠ ',') :
        rest.head? ≠ some c := by
      intro hhead
      rcases spaced_mark h hfollows hhead with hgap | hpercent | hcolon | hcomma
      · rw [hc.1] at hgap
        exact nomatch hgap
      · exact hc.2.1 hpercent
      · exact hc.2.2.1 hcolon
      · exact hc.2.2.2 hcomma
    exact ⟨nameEnds_mark h hfollows hws, hne '[' (by decide), hne '\'' (by decide)⟩
  | quoted | runtimeQuoted | percent | colon | comma => trivial

end

/-! ## All words -/

section

variable {c : Char} {cs tail : List Char} {pos : Nat} {t : Token}

theorem listFrom_gap (hc : isGap c = true) :
    Token.listFrom pos (c :: cs) = Token.listFrom (pos + 1) cs := by
  rw [Token.listFrom]
  exact if_pos hc

theorem listFrom_gaps {gap : List Char} (hgap : ∀ c ∈ gap, isGap c = true) :
    Token.listFrom pos (gap ++ cs) = Token.listFrom (pos + gap.length) cs := by
  induction gap generalizing pos with
  | nil => rfl
  | cons c gap ih =>
    rw [List.cons_append, listFrom_gap (hgap c List.mem_cons_self),
      ih fun a ha => hgap a (List.mem_cons_of_mem c ha), List.length_cons]
    congr 1
    omega

/-- One token, and the others from the position behind it on. -/
theorem listFrom_cons (hc : isGap c = false) : Token.listFrom pos (c :: cs) = do
    let (t, tail) ← Token.scan pos c cs
    let ts ← Token.listFrom (pos + (byteLength (c :: cs) - byteLength tail)) tail
    return ⟨pos, t⟩ :: ts := by
  rw [Token.listFrom]
  have hgap : ¬ (c = ' ' || c = '\t' || c = '\n' || c = '\r') = true := by
    show ¬ isGap c = true
    rw [hc]
    decide
  rw [if_neg hgap]
  split
  · rename_i e he
    rw [he]
    rfl
  · rename_i token tail hscan
    dsimp only
    rw [hscan]
    simp only [bind, Except.bind, pure, Except.pure]
    cases Token.listFrom (pos + (byteLength (c :: cs) - byteLength tail)) tail <;> rfl

theorem listFrom_scan (hc : isGap c = false) (h : Token.scan pos c cs = .ok (t, tail)) :
    ∃ next, Token.listFrom pos (c :: cs) =
      (Token.listFrom next tail).map fun ts => ⟨pos, t⟩ :: ts := by
  refine ⟨pos + (byteLength (c :: cs) - byteLength tail), ?_⟩
  rw [listFrom_cons hc, h]
  rfl

/-- **The tokens of a pattern are those of its words.** -/
theorem listFrom_spaced {ws : List Word} {cs : List Char}
    (h : Spaced isGap (ws.map Word.chars) cs) (hchain : ws.IsChain Word.Follows) (pos : Nat) :
    ∃ ts, Token.listFrom pos cs = .ok ts ∧ ts.map Spanned.token = ws.map Word.token := by
  induction ws generalizing cs pos with
  | nil =>
    refine ⟨[], ?_, rfl⟩
    have hgaps : Token.listFrom pos (cs ++ []) = _ := listFrom_gaps h
    rw [List.append_nil] at hgaps
    rw [hgaps, Token.listFrom]
  | cons w ws ih =>
    obtain ⟨gap, rest, rfl, hgap, hrest⟩ := h
    obtain ⟨c, as, hw, hc, hscan⟩ := scan_word w (Word.stops hrest hchain)
    obtain ⟨next, hlist⟩ := listFrom_scan hc (hscan (pos + gap.length))
    obtain ⟨ts, hts, htokens⟩ := ih hrest (List.isChain_cons.1 hchain).2 next
    refine ⟨⟨pos + gap.length, w.token⟩ :: ts, ?_, congrArg (w.token :: ·) htokens⟩
    rw [listFrom_gaps hgap, hw, List.cons_append, hlist, hts]
    rfl

end

end VoxelEdit.Pattern
