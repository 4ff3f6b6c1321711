import VoxelEdit.Overlay.Color
import VoxelEdit.Proofs.CharacterClasses

/-!
# Texts of colors

A color is documented as a number sign with two digits to the base sixteen for each of its parts,
the opacity being left out where it is full. `Color.Spelled` says so for any way to write a part in
two characters.

* `Color.ofText?_eq_some_iff`: a reader accepts what is spelled by pairs that it can read. These
  are two digits, or a plus sign and one digit (`Color.Read`).
* `Color.text_spelled`: a color is written in its documented form.
* `Color.reads_all_but_signs`: **texts without a plus sign are read exactly if they are in the
  documented form**, and every color is read from its own text.
* `Color.signed_color_read`: a text with plus signs is read as well.
-/

namespace VoxelEdit

namespace Text

/-- The digit of `n` to the base sixteen, in either case. -/
def IsDigitOf (n : Nat) (c : Char) : Prop := n < 16 ∧ (c = n.digitChar ∨ c = n.digitChar.toUpper)

instance (n : Nat) (c : Char) : Decidable (IsDigitOf n c) := inferInstanceAs (Decidable (_ ∧ _))

/-- A digit to the base sixteen. -/
def IsHex (c : Char) : Prop := ∃ n, IsDigitOf n c

/-- Digits to the base sixteen lie within the first 103 characters. -/
theorem toNat_lt_of_hexDigit? {c : Char} {n : Nat} (h : hexDigit? c = some n) : c.toNat < 103 := by
  unfold hexDigit? at h
  split at h
  · rename_i hdigit
    have := isDigit_iff.1 hdigit
    omega
  split at h
  · rename_i hlower
    rw [Bool.and_eq_true, decide_eq_true_eq, decide_eq_true_eq] at hlower
    have : c.toNat ≤ 102 := UInt32.le_iff_toNat_le.1 hlower.2
    omega
  split at h
  · rename_i hupper
    rw [Bool.and_eq_true, decide_eq_true_eq, decide_eq_true_eq] at hupper
    have : c.toNat ≤ 70 := UInt32.le_iff_toNat_le.1 hupper.2
    omega
  · cases h

/-- **The digits that are read**, with their values. -/
theorem hexDigit?_eq_some_iff {c : Char} {n : Nat} : hexDigit? c = some n ↔ IsDigitOf n c := by
  constructor
  · intro h
    have hall : ∀ k : Fin 103, ∀ n ∈ hexDigit? (Char.ofNat k), IsDigitOf n (Char.ofNat k) := by
      decide
    have hc := hall ⟨c.toNat, toNat_lt_of_hexDigit? h⟩ n
    simp only [Char.ofNat_toNat] at hc
    exact hc h
  · rintro ⟨hn, hc⟩
    have hall : ∀ i : Fin 16, hexDigit? i.val.digitChar = some i.val ∧
        hexDigit? i.val.digitChar.toUpper = some i.val := by decide
    obtain ⟨hlower, hupper⟩ := hall ⟨n, hn⟩
    rcases hc with rfl | rfl
    · exact hlower
    · exact hupper

theorem isHex_iff {c : Char} : IsHex c ↔ (hexDigit? c).isSome := by
  simp only [IsHex, Option.isSome_iff_exists, hexDigit?_eq_some_iff]

theorem not_isHex_plus : ¬ IsHex '+' := by
  rw [isHex_iff]
  decide

end Text

namespace Color

open Text

/-- The two digits of a part, in either case. -/
def Digits (v : UInt8) (a b : Char) : Prop := IsDigitOf (v.toNat / 16) a ∧ IsDigitOf (v.toNat % 16) b

/-- What is read as a part: its two digits, or a plus sign and its only digit. -/
def Read (v : UInt8) (a b : Char) : Prop := Digits v a b ∨ a = '+' ∧ IsDigitOf v.toNat b

/-- Parts in a row, each as a pair of characters. -/
inductive Pairs (part : UInt8 → Char → Char → Prop) : List UInt8 → List Char → Prop
  | nil : Pairs part [] []
  | cons {v : UInt8} {a b : Char} {vs : List UInt8} {cs : List Char} :
      part v a b → Pairs part vs cs → Pairs part (v :: vs) (a :: b :: cs)

/-- A number sign and the parts of a color. The opacity may be left out where it is full. -/
def Spelled (part : UInt8 → Char → Char → Prop) (cs : List Char) (c : Color) : Prop :=
  ∃ pairs, cs = '#' :: pairs ∧
    (c.alpha = 255 ∧ Pairs part [c.red, c.green, c.blue] pairs ∨
      Pairs part [c.red, c.green, c.blue, c.alpha] pairs)

/-! ## Pairs of characters -/

section

variable {part : UInt8 → Char → Char → Prop} {v : UInt8} {a b : Char} {vs : List UInt8}
  {cs : List Char}

/-- A byte is made of its two digits. -/
theorem toUInt8_digits {m n : Nat} (hm : m < 16) (hn : n < 16) :
    (16 * m + n).toUInt8 = v ↔ v.toNat / 16 = m ∧ v.toNat % 16 = n := by
  have hv := v.toNat_lt
  have hsmall : 16 * m + n < UInt8.size := show 16 * m + n < 256 by omega
  rw [← UInt8.toNat_inj, Nat.toUInt8_eq, UInt8.toNat_ofNat_of_lt' hsmall]
  omega

/-- **A pair that is read.** -/
theorem pair?_eq_some_iff : pair? a b = some v ↔ Read v a b := by
  unfold pair? Read Digits
  simp only [← hexDigit?_eq_some_iff]
  cases hb : hexDigit? b with
  | none => simp
  | some n =>
    have hn : n < 16 := (hexDigit?_eq_some_iff.1 hb).1
    by_cases ha : a = '+'
    · -- a plus sign is no digit, so that there is only one digit
      have hplus : hexDigit? '+' = none := by decide
      have hvalue := toUInt8_digits (v := v) (m := 0) (n := n) (by decide) hn
      rw [Nat.mul_zero, Nat.zero_add] at hvalue
      have hv := v.toNat_lt
      simp only [ha, hplus, Option.bind_eq_bind, Option.bind_some, if_true, Option.pure_def,
        Option.some.injEq, reduceCtorEq, false_and, false_or, true_and, hvalue]
      omega
    · cases hm : hexDigit? a with
      | none => simp [ha]
      | some m =>
        have hvalue := toUInt8_digits (v := v) (hexDigit?_eq_some_iff.1 hm).1 hn
        simp only [ha, Option.bind_eq_bind, Option.bind_some, if_false, Option.pure_def,
          Option.some.injEq, false_and, or_false, hvalue]
        omega

/-- **Pairs that are read one after the other.** -/
theorem pairs?_eq_some_iff : pairs? cs = some vs ↔ Pairs Read vs cs := by
  constructor
  · intro h
    -- the reader takes two characters at a time
    fun_induction pairs? cs generalizing vs with
    | case1 =>
      cases h
      exact .nil
    | case2 a b rest ih =>
      obtain ⟨v, hv, h⟩ := Option.bind_eq_some_iff.1 h
      obtain ⟨vs', hvs, h⟩ := Option.bind_eq_some_iff.1 h
      cases h
      exact .cons (pair?_eq_some_iff.1 hv) (ih hvs)
    | case3 => cases h
  · intro h
    induction h with
    | nil => simp [pairs?]
    | cons hpart _ ih => simp [pairs?, pair?_eq_some_iff.2 hpart, ih]

theorem Pairs.length (h : Pairs part vs cs) : cs.length = 2 * vs.length := by
  induction h with
  | nil => simp
  | cons _ _ ih => simp [ih, Nat.mul_add]

theorem Pairs.isHex (h : Pairs Digits vs cs) : ∀ c ∈ cs, IsHex c := by
  induction h with
  | nil => simp
  | cons hpart _ ih =>
    rw [List.forall_mem_cons, List.forall_mem_cons]
    exact ⟨⟨_, hpart.1⟩, ⟨_, hpart.2⟩, ih⟩

/-- Two digits make up a part. -/
theorem exists_digits (ha : IsHex a) (hb : IsHex b) : ∃ v, Digits v a b := by
  obtain ⟨m, hm⟩ := ha
  obtain ⟨n, hn⟩ := hb
  obtain ⟨hhigh, hlow⟩ := (toUInt8_digits hm.1 hn.1).1 rfl
  refine ⟨(16 * m + n).toUInt8, ?_, ?_⟩
  · rw [hhigh]
    exact hm
  · rw [hlow]
    exact hn

/-- An even number of digits makes up half as many parts. -/
theorem exists_pairs {n : Nat} (hlength : cs.length = 2 * n) (hcs : ∀ c ∈ cs, IsHex c) :
    ∃ vs, vs.length = n ∧ Pairs Digits vs cs := by
  induction n generalizing cs with
  | zero =>
    obtain rfl := List.length_eq_zero_iff.1 hlength
    exact ⟨[], rfl, .nil⟩
  | succ n ih =>
    match cs, hlength with
    | a :: b :: cs, hlength =>
      rw [List.forall_mem_cons, List.forall_mem_cons] at hcs
      obtain ⟨ha, hb, hcs⟩ := hcs
      obtain ⟨v, hv⟩ := exists_digits ha hb
      have hrest : cs.length = 2 * n := by
        simp only [List.length_cons] at hlength
        omega
      obtain ⟨vs, hvs, hpairs⟩ := ih hrest hcs
      exact ⟨v :: vs, by simp [hvs], .cons hv hpairs⟩

/-- Pairs are read as digits where there is no plus sign. -/
theorem Pairs.digits (h : Pairs Read vs cs) (hcs : '+' ∉ cs) : Pairs Digits vs cs := by
  induction h with
  | nil => exact .nil
  | cons hpart _ ih =>
    simp only [List.mem_cons, not_or] at hcs
    obtain ⟨hsign, -, hcs⟩ := hcs
    exact .cons (hpart.resolve_right fun hread => hsign hread.1.symm) (ih hcs)

theorem Pairs.read (h : Pairs Digits vs cs) : Pairs Read vs cs := by
  induction h with
  | nil => exact .nil
  | cons hpart _ ih => exact .cons (.inl hpart) ih

end

/-! ## Colors -/

section

variable {s : String} {c : Color} {cs : List Char}

/-- **A reader accepts what is spelled by pairs that it reads.** -/
theorem ofText?_eq_some_iff : ofText? s = some c ↔ Spelled Read s.toList c := by
  unfold ofText? Spelled
  simp only [← pairs?_eq_some_iff]
  split
  · rename_i digits hs
    simp only [hs, List.cons.injEq, true_and, exists_eq_left']
    -- three parts make a color of full opacity, four parts a color, and nothing else does
    split
    · rename_i r g b hpairs
      simp only [hpairs, Option.some.injEq, List.cons.injEq, reduceCtorEq, and_false, or_false]
      constructor
      · rintro rfl
        simp [solid]
      · rintro ⟨halpha, rfl, rfl, rfl, -⟩
        cases c
        cases halpha
        simp [solid]
    · rename_i r g b a hpairs
      simp only [hpairs, Option.some.injEq, List.cons.injEq, reduceCtorEq, and_false, false_or]
      constructor
      · rintro rfl
        simp
      · rintro ⟨rfl, rfl, rfl, rfl, -⟩
        simp
    · rename_i hthree hfour
      simp only [reduceCtorEq, false_iff, not_or, not_and]
      exact ⟨fun _ => hthree _ _ _, hfour _ _ _ _⟩
  · rename_i hs
    simp only [reduceCtorEq, false_iff]
    rintro ⟨digits, hdigits, -⟩
    exact hs digits hdigits

/-- The documented form is what is read where there is no plus sign. -/
theorem spelled_digits_iff : Spelled Digits cs c ↔ Spelled Read cs c ∧ '+' ∉ cs := by
  constructor
  · rintro ⟨pairs, rfl, hpairs⟩
    refine ⟨⟨pairs, rfl, hpairs.imp (And.imp_right Pairs.read) Pairs.read⟩, ?_⟩
    have hhex : ∀ d ∈ pairs, IsHex d := hpairs.elim (fun h => h.2.isHex) Pairs.isHex
    simp only [List.mem_cons, not_or]
    exact ⟨by decide, fun hplus => not_isHex_plus (hhex _ hplus)⟩
  · rintro ⟨⟨pairs, rfl, hpairs⟩, hplus⟩
    have hrest : '+' ∉ pairs := fun h => hplus (List.mem_cons_of_mem _ h)
    exact ⟨pairs, rfl, hpairs.imp (And.imp_right (·.digits hrest)) (·.digits hrest)⟩

/-- **The documented form**, without the parts: six or eight digits behind a number sign. -/
theorem exists_spelled_iff : (∃ c, Spelled Digits cs c) ↔
    ∃ digits, cs = '#' :: digits ∧ (digits.length = 6 ∨ digits.length = 8) ∧
      ∀ d ∈ digits, IsHex d := by
  constructor
  · rintro ⟨c, pairs, rfl, ⟨-, h⟩ | h⟩
    · exact ⟨pairs, rfl, .inl h.length, h.isHex⟩
    · exact ⟨pairs, rfl, .inr h.length, h.isHex⟩
  · rintro ⟨digits, rfl, hlength | hlength, hhex⟩
    · obtain ⟨vs, hvs, hpairs⟩ := exists_pairs (n := 3) hlength hhex
      match vs, hvs with
      | [r, g, b], _ => exact ⟨solid r g b, digits, rfl, .inl ⟨rfl, hpairs⟩⟩
    · obtain ⟨vs, hvs, hpairs⟩ := exists_pairs (n := 4) hlength hhex
      match vs, hvs with
      | [r, g, b, a], _ => exact ⟨⟨r, g, b, a⟩, digits, rfl, .inr hpairs⟩

/-- Parts are written as their digits. -/
theorem pairs_digits (vs : List UInt8) : Pairs Digits vs (vs.flatMap digits) := by
  induction vs with
  | nil => exact .nil
  | cons v vs ih =>
    have hv := v.toNat_lt
    exact .cons ⟨⟨by omega, .inr rfl⟩, ⟨by omega, .inr rfl⟩⟩ ih

/-- **A color is written in its documented form.** -/
theorem text_spelled (c : Color) : Spelled Digits c.text.toList c := by
  unfold text Spelled
  simp only [String.toList_ofList]
  refine ⟨_, rfl, ?_⟩
  split
  · rename_i halpha
    exact .inl ⟨halpha, pairs_digits _⟩
  · exact .inr (pairs_digits _)

end

/-- **What is read as a color.** A text is read exactly if each part can be read. Texts without a
plus sign are read exactly if they are in the documented form, a number sign with six or eight
digits, and as the color that these spell. Every color is read from its own text. -/
theorem reads_all_but_signs (s : String) :
    (∀ c, ofText? s = some c ↔ Spelled Read s.toList c) ∧
    (∀ c, ofText? s = some c ∧ '+' ∉ s.toList ↔ Spelled Digits s.toList c) ∧
    ((ofText? s).isSome ∧ '+' ∉ s.toList ↔
      ∃ digits, s.toList = '#' :: digits ∧ (digits.length = 6 ∨ digits.length = 8) ∧
        ∀ d ∈ digits, IsHex d) ∧
    ∀ c : Color, ofText? c.text = some c := by
  have hread (c : Color) : ofText? s = some c ∧ '+' ∉ s.toList ↔ Spelled Digits s.toList c := by
    rw [ofText?_eq_some_iff, spelled_digits_iff]
  refine ⟨fun c => ofText?_eq_some_iff, hread, ?_, fun c => ?_⟩
  · rw [← exists_spelled_iff, Option.isSome_iff_exists, ← exists_and_right]
    exact exists_congr hread
  · exact ofText?_eq_some_iff.2 (spelled_digits_iff.1 c.text_spelled).1

/-- A text with plus signs is no documented form, but is read. -/
theorem signed_color_read :
    ofText? "#+1+2+3" = some (solid 1 2 3) ∧
      ¬ ∃ digits, "#+1+2+3".toList = '#' :: digits ∧ (digits.length = 6 ∨ digits.length = 8) ∧
        ∀ d ∈ digits, IsHex d := by
  refine ⟨by decide, ?_⟩
  rintro ⟨digits, hdigits, -, hhex⟩
  obtain rfl : ['+', '1', '+', '2', '+', '3'] = digits := List.tail_eq_of_cons_eq hdigits
  exact not_isHex_plus (hhex '+' (by simp))

end Color

end VoxelEdit
