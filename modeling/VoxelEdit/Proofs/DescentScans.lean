import VoxelEdit.Proofs.Descent
import VoxelEdit.Proofs.LexemeCursor

/-!
# Looking at bytes and at characters

A cursor stands at a place in the bytes of its text (`Cursor.place`). What the machine sees there is
what the readers see among their characters: white space, tokens and operators, words and numbers.
-/

namespace VoxelEdit

open Number Text

/-- Where a cursor stands in the bytes. -/
def Expr.Cursor.place (c : Expr.Cursor) : Place := ⟨bytesOf c.rest, c.pos⟩

namespace Expr.Cursor

variable {c : Cursor} {a : Char} {cs rest : List Char}

/-- Characters that were passed over. -/
theorem place_advance (hr : c.rest = cs ++ rest) :
    (c.advance cs rest).place = c.place.skip (byteLength cs) := by
  simp [place, advance, Place.skip, hr, ← length_bytesOf]

theorem place_advance_one (hr : c.rest = a :: rest) (ha : a.toNat < 128) :
    (c.advance [a] rest).place = c.place.skip 1 := by
  rw [place_advance (show c.rest = [a] ++ rest from hr), byteLength_cons, utf8Size_narrow ha]
  rfl

/-- A run of a class. -/
theorem place_span {f : Char → Bool} (hf : Coarse f) (c : Cursor) :
    c.place.span f = (c.advance (c.rest.takeWhile f) (c.rest.dropWhile f)).place := by
  rw [place_advance List.takeWhile_append_dropWhile.symm, Place.span, place, takeWhile_bytesOf hf,
    length_bytesOf]

theorem isSpace_wide (h : 128 ≤ a.toNat) : isSpace a = false := by
  rw [← Bool.not_eq_true, isSpace_iff]
  omega

theorem skipSpace_place (c : Cursor) : c.place.skipSpace = c.skip.place :=
  place_span ⟨false, fun _ => isSpace_wide⟩ c

theorem skip_skip (c : Cursor) : c.skip.skip = c.skip := by
  have hback : (c.rest.dropWhile isSpace).dropWhile isSpace = c.rest.dropWhile isSpace :=
    List.dropWhile_idempotent _ _
  have hfront : (c.rest.dropWhile isSpace).takeWhile isSpace = [] := by
    have hparts := List.takeWhile_append_dropWhile (p := isSpace) (l := c.rest.dropWhile isSpace)
    rw [hback] at hparts
    exact List.append_left_eq_self.1 hparts
  simp only [skip, advance, hback, hfront, byteLength_nil, Nat.add_zero]

/-! ## The next characters -/

/-- The next byte is in a class if the next character is. -/
theorem peek?_class {f : Char → Bool} (hf : Coarse f) (c : Cursor) :
    (c.place.peek? 0).map f = c.rest.head?.map f := by
  rw [Place.peek?, ← List.head?_eq_getElem?]
  exact head?_bytesOf hf c.rest

/-- One of the first 128 characters is seen where it comes next, and nowhere else. -/
theorem peek?_place (ha : a.toNat < 128) : c.place.peek? 0 = some a ↔ c.rest.head? = some a := by
  have hclass := peek?_class (ne_coarse ha) c
  cases hpeek : c.place.peek? 0 <;> cases hhead : c.rest.head? <;>
    simp_all

/-- Behind one of the first 128 characters comes the next byte. -/
theorem peek?_one (hr : c.rest = a :: rest) (ha : a.toNat < 128) :
    c.place.peek? 1 = (c.advance [a] rest).place.peek? 0 := by
  rw [place_advance_one hr ha]
  simp [Place.peek?, Place.skip]

/-- The next byte is the next character, or both are past the first 128. -/
theorem exists_peek? (hr : c.rest = a :: rest) :
    ∃ b, c.place.peek? 0 = some b ∧
      (b = a ∧ a.toNat < 128 ∨ 128 ≤ b.toNat ∧ 128 ≤ a.toNat) := by
  obtain ⟨b, bytes, hb, h⟩ := first_byte a rest
  have hpeek : c.place.peek? 0 = some (ofByte b) := by
    simp [place, Place.peek?, hr, hb]
  exact ⟨ofByte b, hpeek, h.imp (fun h => ⟨h.1, h.2.1⟩) id⟩

theorem peek?_nil (hr : c.rest = []) : c.place.peek? 0 = none := by
  simp [place, Place.peek?, hr]

/-- The bytes end where the characters do. -/
theorem isEmpty_place (c : Cursor) : c.place.rest.isEmpty = c.rest.isEmpty := by
  show (ByteLexer.between [] c.rest).rest.isEmpty = _
  exact ByteLexer.isEmpty_between

/-! ## Tokens -/

/-- Characters that are single bytes. -/
def Narrow (cs : List Char) : Prop := ∀ c ∈ cs, c.toNat < 128

theorem Narrow.byteLength (h : Narrow cs) : Text.byteLength cs = cs.length := by
  induction cs with
  | nil => rfl
  | cons c cs ih =>
    obtain ⟨hc, hcs⟩ := List.forall_mem_cons.1 h
    rw [byteLength_cons, utf8Size_narrow hc, ih hcs, List.length_cons, Nat.add_comm]

theorem Narrow.bytes (h : Narrow cs) : (bytesOf cs).map ofByte = cs := by
  induction cs with
  | nil => rfl
  | cons c cs ih =>
    obtain ⟨hc, hcs⟩ := List.forall_mem_cons.1 h
    obtain ⟨b, hb, hbyte⟩ := bytesOf_narrow hc cs
    rw [hb, List.map_cons, hbyte, ih hcs]

/-- A token is the front of the bytes if it is that of the characters. -/
theorem isPrefixOf_bytes {token : List Char} (ht : Narrow token) (cs : List Char) :
    token.isPrefixOf ((bytesOf cs).map ofByte) = token.isPrefixOf cs := by
  induction token generalizing cs with
  | nil => cases cs <;> rfl
  | cons a token ih =>
    obtain ⟨ha, htoken⟩ := List.forall_mem_cons.1 ht
    cases cs with
    | nil => rfl
    | cons c cs =>
      obtain ⟨b, rest, hb, ⟨hc, -, rfl⟩ | ⟨hwide, hc⟩⟩ := first_byte c cs
      · rw [hb, List.map_cons, List.isPrefixOf, List.isPrefixOf, hc, ih htoken]
      · -- neither is in the token
        have hbyte : (a == ofByte b) = false := beq_false_of_ne (ne_of_wide hwide ha).symm
        have hchar : (a == c) = false := beq_false_of_ne (ne_of_wide hc ha).symm
        rw [hb, List.map_cons, List.isPrefixOf, List.isPrefixOf, hbyte, hchar]
        rfl

theorem eat?_place {token : List Char} (ht : Narrow token) (c : Cursor) :
    c.place.eat? token = (c.eat? token).map Cursor.place := by
  have hfront : token.isPrefixOf (c.place.rest.map ofByte) = token.isPrefixOf c.rest :=
    isPrefixOf_bytes ht c.rest
  unfold Place.eat? Cursor.eat?
  rw [hfront]
  split
  · rename_i h
    obtain ⟨rest, hrest⟩ := List.isPrefixOf_iff_prefix.1 h
    have hdrop : c.rest.drop token.length = rest := by
      rw [← hrest, List.drop_left]
    rw [Option.map_some, hdrop, place_advance hrest.symm, ht.byteLength]
  · rfl

/-! ## Words and numbers -/

/-- The text that was passed over. -/
theorem textUntil_place (hr : c.rest = cs ++ rest) (hcs : Narrow cs) :
    c.place.textUntil (c.advance cs rest).place = cs := by
  have hoffset : (c.advance cs rest).place.offset - c.place.offset = (bytesOf cs).length := by
    rw [length_bytesOf]
    exact Nat.add_sub_cancel_left _ _
  have hbytes : c.place.rest = bytesOf cs ++ bytesOf rest := by
    rw [← bytesOf_append, ← hr]
    rfl
  rw [Place.textUntil, hoffset, hbytes, List.take_left, hcs.bytes]

/-- A class that leaves out what is past the first 128 has narrow runs. -/
theorem narrow_takeWhile {f : Char → Bool} (hf : ∀ c : Char, 128 ≤ c.toNat → f c = false)
    (cs : List Char) : Narrow (cs.takeWhile f) := by
  intro c hc
  by_contra hwide
  have hin : f c = true := List.mem_takeWhile_imp hc
  rw [hf c (Nat.le_of_not_lt hwide)] at hin
  exact Bool.false_ne_true hin

/-- The mark of an exponent, and what follows it. -/
def hasExponent : List Char → Bool
  | e :: s :: _ => (e = 'e' || e = 'E') && (s.isDigit || s = '-' || s = '+')
  | _ => false

theorem atExponent_place (c : Cursor) : c.place.atExponent = hasExponent c.rest := by
  have hmark : Coarse fun e => e = 'e' || e = 'E' :=
    ⟨false, fun e he => by simp [ne_of_wide he (a := 'e') (by decide),
      ne_of_wide he (a := 'E') (by decide)]⟩
  have hsign : Coarse fun s : Char => s.isDigit || s = '-' || s = '+' :=
    ⟨false, fun s hs => by simp [isDigit_wide hs, ne_of_wide hs (a := '-') (by decide),
      ne_of_wide hs (a := '+') (by decide)]⟩
  rw [Place.atExponent, peek?_class hmark]
  cases hr : c.rest with
  | nil => rfl
  | cons e rest =>
    by_cases he : e = 'e' ∨ e = 'E'
    · have hnarrow : e.toNat < 128 := by rcases he with rfl | rfl <;> decide
      rw [peek?_one hr hnarrow, peek?_class hsign]
      cases rest with
      | nil => simp [advance, hasExponent]
      | cons s rest => simp [advance, hasExponent]
    · have hnone : (decide (e = 'e') || decide (e = 'E')) = false := by simpa using he
      cases rest <;> simp [hnone, hasExponent]

/-- A number has an exponent of single bytes, or it ends behind its digits. -/
theorem numberText_cases (cs : List Char) :
    (∃ e s rest, cs.dropWhile isDigitOrPoint = e :: s :: rest ∧ hasExponent (e :: s :: rest) = true ∧
      Narrow [e, s] ∧ numberText cs =
        (cs.takeWhile isDigitOrPoint ++ ([e, s] ++ rest.takeWhile isDigitOrPoint),
          rest.dropWhile isDigitOrPoint)) ∨
    hasExponent (cs.dropWhile isDigitOrPoint) = false ∧
      numberText cs = (cs.takeWhile isDigitOrPoint, cs.dropWhile isDigitOrPoint) := by
  unfold numberText
  dsimp only
  split
  · rename_i e s rest hdrop
    split
    · rename_i hmark
      have hnarrow : Narrow [e, s] := by
        simp only [Bool.and_eq_true, Bool.or_eq_true, decide_eq_true_eq, isDigit_iff, char_eq_iff,
          Char.reduceToNat] at hmark
        simp only [Narrow, List.forall_mem_cons, List.not_mem_nil, false_imp_iff, implies_true, and_true]
        omega
      exact .inl ⟨e, s, rest, hdrop, hmark, hnarrow, rfl⟩
    · rename_i hmark
      rw [hdrop]
      exact .inr ⟨Bool.not_eq_true _ ▸ hmark, rfl⟩
  · rename_i hshort
    refine .inr ⟨?_, rfl⟩
    unfold hasExponent
    split
    · rename_i e s rest hdrop
      exact absurd hdrop (hshort e s rest)
    · rfl

/-- A number is the front of its text, in single bytes. -/
theorem numberText_append (cs : List Char) :
    cs = (numberText cs).1 ++ (numberText cs).2 ∧ Narrow (numberText cs).1 := by
  have hdigits (ds : List Char) : Narrow (ds.takeWhile isDigitOrPoint) :=
    narrow_takeWhile (fun _ => isDigitOrPoint_wide) ds
  have hparts (ds : List Char) : ds.takeWhile isDigitOrPoint ++ ds.dropWhile isDigitOrPoint = ds :=
    List.takeWhile_append_dropWhile
  rcases numberText_cases cs with ⟨e, s, rest, hdrop, -, hnarrow, hnumber⟩ | ⟨-, hnumber⟩
  · rw [hnumber]
    refine ⟨?_, List.forall_mem_append.2
      ⟨hdigits cs, List.forall_mem_append.2 ⟨hnarrow, hdigits rest⟩⟩⟩
    simpa [hparts, hdrop] using (hparts cs).symm
  · rw [hnumber]
    exact ⟨(hparts cs).symm, hdigits cs⟩

theorem advance_advance (c : Cursor) (cs ds rest rest' : List Char) :
    (c.advance cs rest).advance ds rest' = c.advance (cs ++ ds) rest' := by
  simp [advance, Nat.add_assoc]

/-- The machine passes over the number that is read. -/
theorem skipNumber_place (c : Cursor) :
    c.place.skipNumber = (c.advance (numberText c.rest).1 (numberText c.rest).2).place := by
  obtain ⟨d, hd⟩ : ∃ d,
      d = c.advance (c.rest.takeWhile isDigitOrPoint) (c.rest.dropWhile isDigitOrPoint) := ⟨_, rfl⟩
  have hrest : d.rest = c.rest.dropWhile isDigitOrPoint := by rw [hd]; rfl
  have hwhole : c.place.skipNumber =
      if hasExponent d.rest then (d.place.skip 2).span isDigitOrPoint else d.place := by
    rw [Place.skipNumber, place_span isDigitOrPoint_coarse, ← hd, atExponent_place]
  rw [hwhole]
  rcases numberText_cases c.rest with ⟨e, s, rest, hdrop, hmark, hnarrow, hnumber⟩ | ⟨hmark, hnumber⟩
  · rw [hdrop] at hrest
    have hskip : (d.advance [e, s] rest).place = d.place.skip 2 := by
      rw [place_advance hrest, hnarrow.byteLength]
      rfl
    rw [hrest, if_pos hmark, ← hskip, place_span isDigitOrPoint_coarse, advance_advance, hd,
      advance_advance, hnumber]
    rfl
  · rw [hrest, hmark, if_neg Bool.false_ne_true, hd, hnumber]

end Expr.Cursor

namespace Descent

open VoxelEdit.Expr

theorem token_narrow (op : BinaryOp) : Cursor.Narrow op.token := by
  cases op <;> simp [BinaryOp.token, Cursor.Narrow]

/-- The machine finds the operator that the readers find. -/
theorem operator?_place (r : Nat) (c : Cursor) : Descent.operator? (operators r) c.place =
    (nextOperator (operators r) c).map fun x => (x.1, x.2.place) := by
  have htokens : ∀ x ∈ operators r, ∃ op : BinaryOp, x.1 = op.token :=
    fun x hx => ⟨x.2, (mem_operators hx).2⟩
  generalize operators r = ops at htokens ⊢
  induction ops with
  | nil => rfl
  | cons x ops ih =>
    obtain ⟨token, op⟩ := x
    obtain ⟨⟨op', rfl⟩, hops⟩ := List.forall_mem_cons.1 htokens
    obtain ⟨a, cs, htoken, -, -⟩ := head_token op'
    have heats := Cursor.eat?_place (token_narrow op') c
    unfold Descent.operator? at ih ⊢
    simp only [List.findSome?_cons, heats]
    cases heat : c.eat? op'.token with
    | none =>
      rw [nextOperator_of_none heat]
      exact ih hops
    | some d =>
      rw [nextOperator_of_some heat (by simp [htoken])]
      rfl

end Descent

end VoxelEdit
