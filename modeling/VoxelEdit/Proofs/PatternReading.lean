import VoxelEdit.Proofs.FormulaReading
import VoxelEdit.Proofs.PatternLexing
import VoxelEdit.Proofs.UnsignedDoubles

/-!
# Written patterns are read back

* `weight_written`, `data_written`, `descriptor_written`: each part of a term is read from its words,
  whatever comes behind it.
* `termsUpTo_written`: so are terms between commas, by induction over them.
* `parse_terms`: **a written pattern is read as the terms that were written**, in order.
-/

namespace VoxelEdit.Pattern

open Number Text

variable {pos : Nat} {ts : List Spanned} {ws : List Word}

/-- Tokens that words are. -/
def Tokens (ts : List Spanned) (ws : List Word) : Prop :=
  ts.map Spanned.token = ws.map Word.token

theorem Tokens.nil (h : Tokens ts []) : ts = [] := List.map_eq_nil_iff.1 h

theorem Tokens.cons {w : Word} (h : Tokens ts (w :: ws)) :
    ∃ pos rest, ts = ⟨pos, w.token⟩ :: rest ∧ Tokens rest ws := by
  obtain ⟨⟨pos, token⟩, rest, rfl, htoken, hrest⟩ := List.map_eq_cons_iff.1 h
  have hsame : token = w.token := htoken
  exact ⟨pos, rest, by rw [hsame], hrest⟩

theorem Tokens.exists_word {t : Spanned} (h : Tokens (t :: ts) ws) :
    ∃ w vs, ws = w :: vs ∧ t.token = w.token ∧ Tokens ts vs := by
  obtain ⟨w, vs, rfl, hw, hvs⟩ := List.map_eq_cons_iff.1 h.symm
  exact ⟨w, vs, rfl, hw.symm, hvs.symm⟩

/-! ## Formulas and numbers -/

theorem formula_text (q : Quote) : formula pos q.text = .ok q.text := by
  obtain ⟨e, he⟩ := q.valid
  have hparse : Expr.parse q.text = .ok e := he
  unfold formula
  rw [hparse]

/-- A decimal without a fraction is a sign and digits. -/
theorem chars_whole (negative : Bool) (n : Numeral) :
    Decimal.chars ⟨negative, n, none⟩ = (if negative then ['-'] else []) ++ n.digits :=
  congrArg (_ ++ ·) (List.append_nil n.digits)

theorem double?_decimal (whole : Numeral) (fraction : Option Numeral) :
    double? (Decimal.chars ⟨false, whole, fraction⟩) = some (decimalValue whole fraction) := by
  cases fraction with
  | none =>
    rw [chars_whole]
    exact double?_digits whole.nonempty whole.digit
  | some n => exact double?_fraction whole.nonempty whole.digit n.digit

theorem decimalValue_not_lt_zero (whole : Numeral) (fraction : Option Numeral) :
    ¬ decimalValue whole fraction < 0.0 := by
  cases fraction with
  | none => exact unsignedValue_not_lt_zero _ _
  | some n => exact unsignedValue_not_lt_zero _ _

/-! ## Parts of a term -/

theorem weight_percent (t : Spanned) (pos : Nat) (rest : List Spanned) :
    weight (t :: ⟨pos, .percent⟩ :: rest) = (weightOf t).map fun w => (w, rest) := rfl

theorem weightOf_number (pos : Nat) (text : String) : weightOf ⟨pos, .number text⟩ =
    match double? text.toList with
    | none => .error (.badNumber pos text)
    | some v => if v < 0.0 then .error (.negativeWeight pos) else .ok (.constant v) := rfl

/-- **A weight is read**, and none where none is written. -/
theorem weight_written (w : WeightText) (h : Tokens ts (w.words ++ ws))
    (hws : ∀ v ∈ ws.tail.head?, v.token ≠ .percent) :
    ∃ rest, weight ts = .ok (w.weight, rest) ∧ Tokens rest ws := by
  cases w with
  | absent =>
    refine ⟨ts, ?_, h⟩
    unfold weight
    split
    · -- a percent sign would be the second word
      rename_i t pos rest
      obtain ⟨v, vs, rfl, -, hvs⟩ := Tokens.exists_word h
      obtain ⟨u, us, rfl, hpercent, -⟩ := Tokens.exists_word hvs
      exact absurd hpercent.symm (hws u rfl)
    · rfl
  | amount whole fraction =>
    obtain ⟨pos, ts', rfl, hts⟩ := h.cons
    obtain ⟨pos', rest, rfl, hrest⟩ := hts.cons
    refine ⟨rest, ?_, hrest⟩
    have hvalue : double? (String.ofList (Decimal.chars ⟨false, whole, fraction⟩)).toList =
        some (decimalValue whole fraction) := by
      rw [String.toList_ofList]
      exact double?_decimal whole fraction
    have hweight : weightOf ⟨pos, .number (String.ofList (Decimal.chars ⟨false, whole, fraction⟩))⟩ =
        .ok (.constant (decimalValue whole fraction)) := by
      rw [weightOf_number, hvalue]
      exact if_neg (decimalValue_not_lt_zero whole fraction)
    exact (weight_percent _ _ _).trans (congrArg _ hweight)
  | formula q =>
    obtain ⟨pos, ts', rfl, hts⟩ := h.cons
    obtain ⟨pos', rest, rfl, hrest⟩ := hts.cons
    refine ⟨rest, ?_, hrest⟩
    show ((formula pos q.text).map Weight.formula).map _ = _
    rw [formula_text]
    rfl

/-- **A data value is read**, and none where none is written. -/
theorem data_written (fin : Nat) (d : DataText) (h : Tokens ts (d.words ++ ws)) (hends : Ends ws) :
    ∃ rest, data fin ts = .ok (d.spec, rest) ∧ Tokens rest ws := by
  cases d with
  | absent =>
    refine ⟨ts, ?_, h⟩
    rcases hends with rfl | ⟨vs, rfl⟩
    · rw [Tokens.nil h]
      rfl
    · obtain ⟨pos, ts, rfl, -⟩ := Tokens.cons h
      rfl
  | value n hn =>
    obtain ⟨pos, ts', rfl, hts⟩ := h.cons
    obtain ⟨pos', rest, rfl, hrest⟩ := hts.cons
    refine ⟨rest, ?_, hrest⟩
    have hvalue : bounded? maxWord16 (String.ofList (Decimal.chars ⟨false, n, none⟩)).toList =
        some (digitsValue n.digits) := by
      rw [String.toList_ofList, chars_whole]
      exact bounded?_digits n.nonempty n.digit hn
    unfold data Word.token
    dsimp only
    rw [hvalue]
    rfl
  | formula q =>
    obtain ⟨pos, ts', rfl, hts⟩ := h.cons
    obtain ⟨pos', rest, rfl, hrest⟩ := hts.cons
    refine ⟨rest, ?_, hrest⟩
    show (formula pos' q.text).map _ = _
    rw [formula_text]
    rfl

/-- A name with no number behind `rt` is the name of a block. -/
theorem runtimeId?_none {x : NameText} (h : ¬ x.IsPlace) :
    Descriptor.runtimeId? (String.ofList x.chars) = none := by
  unfold Descriptor.runtimeId?
  rw [String.toList_ofList]
  split
  · rename_i digits hx
    split
    · rfl
    · rename_i hdigits
      obtain ⟨hempty, hall⟩ := Bool.or_eq_false_iff.1 (Bool.eq_false_iff.2 hdigits)
      have hdigit : digits.all Char.isDigit = true := Bool.not_eq_eq_eq_not.1 hall
      exact absurd ⟨⟨digits, List.isEmpty_eq_false_iff.1 hempty, List.all_eq_true.1 hdigit⟩, hx⟩ h
  · rfl

theorem runtimeId?_place (n : Numeral) (h : digitsValue n.digits ≤ maxWord32) :
    Descriptor.runtimeId? (String.ofList (placeName n).chars) = some (digitsValue n.digits) := by
  unfold Descriptor.runtimeId?
  rw [String.toList_ofList]
  show (if n.digits.isEmpty || !n.digits.all Char.isDigit then none
    else bounded? maxWord32 n.digits) = _
  rw [List.isEmpty_eq_false_iff.2 n.nonempty, List.all_eq_true.2 n.digit]
  exact bounded?_digits n.nonempty n.digit h

/-- A name without a namespace has the default one. -/
theorem qualify_chars (x : NameText) : Block.qualify (String.ofList x.chars) = x.qualified := by
  unfold Block.qualify
  rw [String.toList_ofList]
  cases x with
  | plain x =>
    refine if_neg fun hcontains => ?_
    exact absurd (x.isWord ':' (List.contains_iff_mem.1 hcontains)) (by decide)
  | within space x h =>
    have hmem : ':' ∈ space.chars ++ ':' :: x.chars :=
      List.mem_append_right _ List.mem_cons_self
    have hjoin : String.ofList (space.chars ++ ':' :: x.chars) = space.name ++ ":" ++ x.name := by
      rw [List.append_cons, String.ofList_append, String.ofList_append]
      rfl
    exact (if_pos (List.contains_iff_mem.2 hmem)).trans hjoin

theorem whole_decimal {negative : Bool} {n : Numeral} (hlo : minInt32 ≤ signedValue negative n.digits)
    (hhi : signedValue negative n.digits ≤ maxInt32) :
    whole pos (String.ofList (Decimal.chars ⟨negative, n, none⟩)) =
      .ok (signedValue negative n.digits) := by
  have hvalue := integer?_signed n.nonempty n.digit hlo hhi
  unfold whole
  rw [String.toList_ofList, chars_whole, hvalue]

/-- **A block is read**, by whichever way it is written. -/
theorem descriptor_written (fin : Nat) (b : BlockText) (h : Tokens ts (b.words ++ ws)) (hends : Ends ws) :
    ∃ rest, descriptor fin ts = .ok (b.descriptor, rest) ∧ Tokens rest ws := by
  cases b with
  | named x hx states d =>
    obtain ⟨pos, ts', rfl, hts⟩ := h.cons
    obtain ⟨rest, hdata, hrest⟩ := data_written fin d hts hends
    refine ⟨rest, ?_, hrest⟩
    show (data fin ts' >>= fun y => .ok (Descriptor.ofName (String.ofList x.chars)
      (states.map StateText.pair) y.1, y.2)) = _
    rw [hdata]
    show Except.ok (Descriptor.ofName (String.ofList x.chars) (states.map StateText.pair) d.spec,
      rest) = _
    unfold Descriptor.ofName
    rw [runtimeId?_none hx, qualify_chars]
    rfl
  | legacy negative n lo hi d =>
    obtain ⟨pos, ts', rfl, hts⟩ := h.cons
    obtain ⟨rest, hdata, hrest⟩ := data_written fin d hts hends
    refine ⟨rest, ?_, hrest⟩
    show (whole pos (String.ofList (Decimal.chars ⟨negative, n, none⟩)) >>= fun id =>
      data fin ts' >>= fun y => Except.ok (Descriptor.legacy id y.1, y.2)) = _
    rw [whole_decimal lo hi, hdata]
    rfl
  | legacyFormula q d =>
    obtain ⟨pos, ts', rfl, hts⟩ := h.cons
    obtain ⟨rest, hdata, hrest⟩ := data_written fin d hts hends
    refine ⟨rest, ?_, hrest⟩
    show (formula pos q.text >>= fun id =>
      data fin ts' >>= fun y => Except.ok (Descriptor.legacyFormula id y.1, y.2)) = _
    rw [formula_text, hdata]
    rfl
  | place n hn =>
    obtain ⟨pos, ts', rfl, hts⟩ := h.cons
    obtain ⟨rest, hdata, hrest⟩ := data_written fin .absent hts hends
    refine ⟨rest, ?_, hrest⟩
    show (data fin ts' >>= fun y => .ok (Descriptor.ofName (String.ofList (placeName n).chars)
      [] y.1, y.2)) = _
    rw [hdata]
    show Except.ok (Descriptor.ofName (String.ofList (placeName n).chars) [] _, rest) = _
    unfold Descriptor.ofName
    rw [runtimeId?_place n hn]
    rfl
  | placeFormula q =>
    obtain ⟨pos, rest, rfl, hrest⟩ := h.cons
    refine ⟨rest, ?_, hrest⟩
    show (formula pos q.text >>= fun id => Except.ok (Descriptor.runtimeFormula id, rest)) = _
    rw [formula_text]
    rfl

/-- No percent sign stands behind the first word of a block. -/
theorem second_ne_percent (b : BlockText) (hends : Ends ws) :
    ∀ v ∈ (b.words ++ ws).tail.head?, v.token ≠ .percent := by
  have hend : ∀ v ∈ ws.head?, v.token ≠ .percent := by
    rcases hends with rfl | ⟨vs, rfl⟩
    · exact nofun
    · rintro v ⟨⟩
      exact nofun
  have hdata (d : DataText) : ∀ v ∈ (d.words ++ ws).head?, v.token ≠ .percent := by
    cases d with
    | absent => exact hend
    | value n h => rintro v ⟨⟩; exact nofun
    | formula q => rintro v ⟨⟩; exact nofun
  cases b with
  | named x h states d => exact hdata d
  | legacy negative n lo hi d => exact hdata d
  | legacyFormula q d => exact hdata d
  | place n h => exact hend
  | placeFormula q => exact hend

/-! ## Terms -/

/-- **A term is read**, and what comes behind it is left. -/
theorem term_written (fin : Nat) (t : TermText) (h : Tokens ts (t.words ++ ws)) (hends : Ends ws) :
    ∃ mid rest, weight ts = .ok (t.weight.weight, mid) ∧
      descriptor fin mid = .ok (t.block.descriptor, rest) ∧ Tokens rest ws := by
  have hwords : t.words ++ ws = t.weight.words ++ (t.block.words ++ ws) := List.append_assoc _ _ _
  rw [hwords] at h
  obtain ⟨mid, hweight, hmid⟩ := weight_written t.weight h (second_ne_percent t.block hends)
  obtain ⟨rest, hdescriptor, hrest⟩ := descriptor_written fin t.block hmid hends
  exact ⟨mid, rest, hweight, hdescriptor, hrest⟩

/-- **Terms are read one after the other.** -/
theorem termsUpTo_written (fin : Nat) {us : List TermText} (hus : us ≠ []) {limit : Nat}
    (hlimit : us.length ≤ limit) (h : Tokens ts (wordsOf us)) :
    termsUpTo fin limit ts = .ok (us.map TermText.term) := by
  induction us generalizing limit ts with
  | nil => exact absurd rfl hus
  | cons t us ih =>
    obtain ⟨limit, rfl⟩ := Nat.exists_eq_add_of_le' (Nat.le_trans us.length.succ_pos hlimit)
    have hlength : us.length ≤ limit := Nat.le_of_succ_le_succ hlimit
    cases us with
    | nil =>
      rw [wordsOf_singleton, ← List.append_nil t.words] at h
      obtain ⟨mid, rest, hweight, hdescriptor, hrest⟩ := term_written fin t h (.inl rfl)
      obtain rfl : rest = [] := hrest.nil
      rw [termsUpTo, hweight]
      show (descriptor fin mid >>= _) = _
      rw [hdescriptor]
      rfl
    | cons u us =>
      rw [wordsOf_cons_cons] at h
      obtain ⟨mid, rest, hweight, hdescriptor, hrest⟩ := term_written fin t h (.inr ⟨_, rfl⟩)
      obtain ⟨pos, others, rfl, hothers⟩ := hrest.cons
      rw [termsUpTo, hweight]
      show (descriptor fin mid >>= _) = _
      rw [hdescriptor]
      show (termsUpTo fin limit others >>= _) = _
      rw [ih (List.cons_ne_nil u us) hlength hothers]
      rfl

theorem exists_word (t : TermText) : ∃ w vs, t.words = w :: vs := by
  obtain ⟨weight, block⟩ := t
  have hblock : ∃ w vs, block.words = w :: vs := by
    cases block <;> exact ⟨_, _, rfl⟩
  cases weight with
  | absent => exact hblock
  | amount | formula => exact ⟨_, _, rfl⟩

/-- There are no more terms than words. -/
theorem length_le_wordsOf (us : List TermText) : us.length ≤ (wordsOf us).length := by
  induction us with
  | nil => exact Nat.zero_le _
  | cons t us ih =>
    obtain ⟨w, vs, ht⟩ := exists_word t
    cases us with
    | nil =>
      rw [wordsOf_singleton, ht]
      exact Nat.succ_le_succ (Nat.zero_le _)
    | cons u us =>
      rw [wordsOf_cons_cons, ht]
      simp only [List.length_append, List.length_cons] at ih ⊢
      omega

theorem length_le_tokens {us : List TermText} (h : Tokens ts (wordsOf us)) :
    us.length ≤ ts.length := by
  have hlength : ts.length = (wordsOf us).length := by
    rw [← List.length_map Spanned.token, h, List.length_map]
  exact hlength ▸ length_le_wordsOf us

/-- A list of terms starts with no directive. -/
theorem sourceOf_written (fin : Nat) {us : List TermText} (hus : us ≠ [])
    (h : Tokens ts (wordsOf us)) : sourceOf fin ts = .ok (.terms (us.map TermText.term)) := by
  unfold sourceOf
  split
  · obtain ⟨w, vs, -, hw, -⟩ := Tokens.exists_word h
    cases w <;> exact nomatch hw
  · rw [termsUpTo_written fin hus (length_le_tokens h) h]
    rfl

/-! ## The whole text -/

/-- **A written pattern is read as the terms that were written**, in order: names with a namespace,
states sorted, and weight one where none is written. -/
theorem parse_terms {us : List TermText} (hus : us ≠ []) {text : String} (h : Writes us text) :
    ∃ p, parse text = .ok p ∧ p.text = text ∧ p.terms = us.map TermText.term ∧ p.tiling? = none := by
  obtain ⟨ts, hlist, htokens⟩ := listFrom_spaced h (wordsOf_chain us) 0
  have hsource := sourceOf_written text.utf8ByteSize hus htokens
  have hne : ts.isEmpty = false := by
    have hpos := Nat.lt_of_lt_of_le (List.length_pos_iff.2 hus) (length_le_tokens htokens)
    exact List.isEmpty_eq_false_iff.2 (List.length_pos_iff.1 hpos)
  have htext : Token.ofText text = .ok ts := hlist
  refine ⟨⟨text, .terms (us.map TermText.term)⟩, ?_, rfl, rfl, rfl⟩
  unfold parse
  rw [htext]
  show (if ts.isEmpty = true then _ else sourceOf text.utf8ByteSize ts >>= fun s =>
    Except.ok (Pattern.mk text s)) = _
  rw [hne, hsource]
  rfl

/-- A weight, a state, a formula for a weight, a place of the palette and a data value. -/
theorem parse_terms_three :
    ∃ p, parse "0.5%log[axis = y] , 'x'%rt7,-3:'x'" = .ok p ∧ p.terms =
      [⟨.constant (unsignedValue 5 (-1)), .named ⟨"minecraft:log", 0, [("axis", "y")]⟩ .any⟩,
        ⟨.formula "x", .runtime 7⟩, ⟨.constant 1.0, .legacy (-3) (.formula "x")⟩] := by
  let digit (c : Char) (h : c.isDigit = true) : Numeral :=
    ⟨[c], List.cons_ne_nil c [], fun a ha => List.mem_singleton.1 ha ▸ h⟩
  let x : Identifier := ⟨'x', [], by decide, List.forall_mem_nil _⟩
  let log : NameText := .plain ⟨'l', ['o', 'g'], by decide, List.all_eq_true.1 rfl⟩
  have blank : ∀ c ∈ [' '], isBlank c = true := List.all_eq_true.1 rfl
  let axis : StateText := {
    key := ⟨[], ['a', 'x', 'i', 's'], [' '], List.forall_mem_nil _, blank,
      ⟨by rintro c ⟨⟩; rfl, by rintro c ⟨⟩; rfl⟩⟩
    value := ⟨[' '], ['y'], [], blank, List.forall_mem_nil _,
      ⟨by rintro c ⟨⟩; rfl, by rintro c ⟨⟩; rfl⟩⟩
    plain := by simp }
  have hlog : ¬ log.IsPlace := by
    rintro ⟨n, h⟩
    exact absurd (List.cons.inj h).1 (by decide)
  have hx : ∃ e, Expr.parse (String.ofList ['x']) = .ok e := by
    have hwrites : (Formula.variable x).Writes (String.ofList ['x']) := by
      show Spaced isSpace _ (String.ofList _).toList
      rw [String.toList_ofList]
      exact ⟨[], _, rfl, List.forall_mem_nil _, List.forall_mem_nil _⟩
    obtain ⟨e, -, he⟩ := (Expr.parse_reaches hwrites).arrives (by decide)
    exact ⟨e, he⟩
  let quote : Quote := ⟨['x'], hx, by decide⟩
  let us : List TermText :=
    [⟨.amount (digit '0' (by decide)) (some (digit '5' (by decide))), .named log hlog [axis] .absent⟩,
      ⟨.formula quote, .place (digit '7' (by decide)) (by decide)⟩,
      ⟨.absent, .legacy true (digit '3' (by decide)) (by decide) (by decide) (.formula quote)⟩]
  have gap : ∀ c ∈ [' '], isGap c = true := List.all_eq_true.1 rfl
  have none : ∀ c ∈ [], isGap c = true := List.forall_mem_nil _
  have hwrites : Writes us "0.5%log[axis = y] , 'x'%rt7,-3:'x'" := by
    show Spaced isGap _ (String.ofList _).toList
    rw [String.toList_ofList]
    exact ⟨[], _, rfl, none, [], _, rfl, none, [], _, rfl, none, [' '], _, rfl, gap,
      [' '], _, rfl, gap, [], _, rfl, none, [], _, rfl, none, [], _, rfl, none,
      [], _, rfl, none, [], _, rfl, none, [], _, rfl, none, none⟩
  obtain ⟨p, hp, -, hterms, -⟩ := parse_terms (List.cons_ne_nil _ _) hwrites
  refine ⟨p, hp, hterms.trans ?_⟩
  have hsorted : Block.sortProperties [("axis", "y")] = [("axis", "y")] := List.mergeSort_singleton _
  rw [← hsorted]
  rfl

end VoxelEdit.Pattern
