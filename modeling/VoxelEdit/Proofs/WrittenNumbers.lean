import VoxelEdit.Number.Decimal
import VoxelEdit.Proofs.CharacterClasses

/-!
# Written numbers and names

* `Numeral`, `Identifier`: digits, and names of letters, digits and underscores.
* `double?_digits`, `double?_fraction`: digits, and digits on both sides of a point, are read as the
  nearest double.
* `bounded?_digits`, `integer?_signed`: whole numbers within bounds are read exactly, and so are those
  that are printed (`integer?_toString`).
* `takeWhile_run`, `dropWhile_run`: where a run of characters of one class ends.
-/

namespace VoxelEdit.Number

open Text

section

variable {p : Char → Bool} {cs rest : List Char}

/-- A run of a class ends where the next character is not of it. -/
theorem takeWhile_run (hcs : ∀ c ∈ cs, p c = true) (hrest : ∀ c ∈ rest.head?, p c = false) :
    (cs ++ rest).takeWhile p = cs := by
  rw [List.takeWhile_append_of_pos hcs]
  cases rest with
  | nil => exact List.append_nil cs
  | cons c rest =>
    have hc : p c = false := hrest c rfl
    rw [List.takeWhile_cons_of_neg (by rw [hc]; decide), List.append_nil]

theorem dropWhile_run (hcs : ∀ c ∈ cs, p c = true) (hrest : ∀ c ∈ rest.head?, p c = false) :
    (cs ++ rest).dropWhile p = rest := by
  rw [List.dropWhile_append_of_pos hcs]
  cases rest with
  | nil => rfl
  | cons c rest =>
    have hc : p c = false := hrest c rfl
    exact List.dropWhile_cons_of_neg (by rw [hc]; decide)

end

variable {ds es : List Char}

/-- Digits do not start with a sign. -/
theorem splitSign_of_digit {c : Char} {cs : List Char} (hc : c.isDigit = true) :
    splitSign (c :: cs) = (false, c :: cs) := by
  unfold splitSign
  split
  · rename_i h
    exact absurd ((List.cons.inj h).1 ▸ hc) (by decide)
  · rename_i h
    exact absurd ((List.cons.inj h).1 ▸ hc) (by decide)
  · rfl

/-- Text that starts with a digit is no word for a number. -/
theorem parse?_of_digit {c : Char} {cs : List Char} (hc : c.isDigit = true) :
    Literal.parse? (c :: cs) = Literal.unsigned? false (c :: cs) := by
  have hlower : c.toLower = c := by
    rw [isDigit_iff] at hc
    unfold Char.toLower
    rw [dif_neg]
    simp only [ge_iff_le, UInt32.le_iff_toNat_le, Char.toNat_val]
    simp
    omega
  have hword (a : Char) (w : List Char) (ha : a.isDigit = false) :
      String.ofList ((c :: cs).map Char.toLower) ≠ String.ofList (a :: w) := by
    intro h
    have hlist := String.ofList_injective h
    rw [List.map_cons, hlower] at hlist
    rw [(List.cons.inj hlist).1, ha] at hc
    exact nomatch hc
  unfold Literal.parse?
  rw [splitSign_of_digit hc]
  dsimp only
  rw [if_neg, if_neg]
  · exact hword 'n' ['a', 'n'] rfl
  · intro h
    rcases Bool.or_eq_true_iff.1 h with h | h
    · exact hword 'i' ['n', 'f'] rfl (of_decide_eq_true h)
    · exact hword 'i' ['n', 'f', 'i', 'n', 'i', 't', 'y'] rfl (of_decide_eq_true h)

/-- The double nearest to an unsigned decimal. -/
def unsignedValue (mantissa : Nat) (exponent : Int) : Float :=
  Float.ofBits (Literal.toBits double (.decimal false mantissa exponent)).toUInt64

/-- **Digits are read as a whole number.** -/
theorem double?_digits (hne : ds ≠ []) (hds : ∀ c ∈ ds, c.isDigit = true) :
    double? ds = some (unsignedValue (digitsValue ds) 0) := by
  obtain ⟨c, cs, rfl⟩ := List.exists_cons_of_ne_nil hne
  have hc : c.isDigit = true := hds c List.mem_cons_self
  have htake : (c :: cs ++ []).takeWhile Char.isDigit = c :: cs := takeWhile_run hds nofun
  have hdrop : (c :: cs ++ []).dropWhile Char.isDigit = [] := dropWhile_run hds nofun
  rw [List.append_nil] at htake hdrop
  unfold double?
  rw [parse?_of_digit hc]
  unfold Literal.unsigned?
  rw [htake, hdrop]
  show Option.map _ (some (Literal.decimal false (digitsValue (c :: cs ++ [])) (0 - 0))) = _
  rw [List.append_nil]
  rfl

/-- **Digits, a point and more digits are read as a decimal fraction.** -/
theorem double?_fraction (hne : ds ≠ []) (hds : ∀ c ∈ ds, c.isDigit = true)
    (hes : ∀ c ∈ es, c.isDigit = true) : double? (ds ++ '.' :: es) =
      some (unsignedValue (digitsValue (ds ++ es)) (-es.length)) := by
  obtain ⟨c, cs, rfl⟩ := List.exists_cons_of_ne_nil hne
  have hc : c.isDigit = true := hds c List.mem_cons_self
  have hpoint : ∀ a ∈ ('.' :: es).head?, a.isDigit = false := by
    rintro a ⟨⟩
    rfl
  have htake : (es ++ []).takeWhile Char.isDigit = es := takeWhile_run hes nofun
  have hdrop : (es ++ []).dropWhile Char.isDigit = [] := dropWhile_run hes nofun
  rw [List.append_nil] at htake hdrop
  unfold double?
  rw [List.cons_append, parse?_of_digit hc, ← List.cons_append]
  unfold Literal.unsigned?
  rw [takeWhile_run hds hpoint, dropWhile_run hds hpoint]
  show Option.map _ (if ((c :: cs).isEmpty && (es.takeWhile Char.isDigit).isEmpty) = true then none
    else Literal.exponent? (es.dropWhile Char.isDigit) >>= fun e =>
      some (Literal.decimal false (digitsValue (c :: cs ++ es.takeWhile Char.isDigit))
        (e - (es.takeWhile Char.isDigit).length))) = _
  rw [htake, hdrop, ← Int.zero_sub]
  rfl

/-! ## Whole numbers within bounds -/

theorem natural?_digits (hne : ds ≠ []) (hds : ∀ c ∈ ds, c.isDigit = true) :
    natural? ds = some (digitsValue ds) := by
  refine if_neg ?_
  rw [List.isEmpty_eq_false_iff.2 hne, List.all_eq_true.2 hds]
  decide

theorem bounded?_digits {hi : Nat} (hne : ds ≠ []) (hds : ∀ c ∈ ds, c.isDigit = true)
    (hhi : digitsValue ds ≤ hi) : bounded? hi ds = some (digitsValue ds) := by
  unfold bounded?
  dsimp only
  split
  · exact absurd (hds '+' List.mem_cons_self) (by decide)
  · rw [natural?_digits hne hds]
    exact if_pos hhi

/-- The value of digits with a minus sign or without one. -/
def signedValue (negative : Bool) (ds : List Char) : Int :=
  if negative then -(digitsValue ds : Int) else digitsValue ds

theorem integer?_signed {lo hi : Int} {negative : Bool} (hne : ds ≠ [])
    (hds : ∀ c ∈ ds, c.isDigit = true) (hlo : lo ≤ signedValue negative ds)
    (hhi : signedValue negative ds ≤ hi) :
    integer? lo hi ((if negative then ['-'] else []) ++ ds) = some (signedValue negative ds) := by
  have hsplit : splitSign ((if negative then ['-'] else []) ++ ds) = (negative, ds) := by
    obtain ⟨c, cs, rfl⟩ := List.exists_cons_of_ne_nil hne
    cases negative with
    | true => rfl
    | false => exact splitSign_of_digit (hds c List.mem_cons_self)
  have hin : (decide (lo ≤ signedValue negative ds) && decide (signedValue negative ds ≤ hi)) = true := by
    rw [decide_eq_true hlo, decide_eq_true hhi]
    rfl
  unfold integer?
  rw [hsplit]
  dsimp only
  rw [natural?_digits hne hds]
  exact if_pos hin

/-! ## Printed numbers -/

theorem isDigit_of_mem_toDigits {n : Nat} : ∀ c ∈ Nat.toDigits 10 n, c.isDigit = true := by
  intro c hc
  exact Nat.isDigit_of_mem_toDigits (by decide) (by decide) hc

/-- The digits of a printed number have its value. -/
theorem digitsValue_toDigits (n : Nat) : digitsValue (Nat.toDigits 10 n) = n := by
  have hvalue : Nat.ofDigitChars 10 (Nat.toDigits 10 n) 0 = n := Nat.ofDigitChars_ten_toDigits
  rwa [Nat.ofDigitChars_eq_foldl] at hvalue

theorem signedValue_toDigits (v : Int) :
    signedValue (decide (v < 0)) (Nat.toDigits 10 v.natAbs) = v := by
  unfold signedValue
  rw [digitsValue_toDigits]
  by_cases hv : v < 0
  · rw [decide_eq_true hv, if_pos rfl]
    omega
  · rw [decide_eq_false hv, if_neg (by decide)]
    omega

/-- A whole number is printed as a minus sign, if it has one, and its digits. -/
theorem toList_toString (v : Int) : (toString v).toList =
    (if decide (v < 0) then ['-'] else []) ++ Nat.toDigits 10 v.natAbs := by
  rw [Int.toString_eq_repr, Int.repr_eq_if]
  by_cases hv : v < 0
  · have habs : (-v).toNat = v.natAbs := by omega
    rw [if_neg (by omega), decide_eq_true hv, String.toList_append, Nat.toList_repr, habs]
    rfl
  · have habs : v.toNat = v.natAbs := by omega
    rw [if_pos (by omega), decide_eq_false hv, Nat.toList_repr, habs]
    rfl

/-- **A printed number within bounds is read back.** -/
theorem integer?_toString {lo hi v : Int} (hlo : lo ≤ v) (hhi : v ≤ hi) :
    integer? lo hi (toString v).toList = some v := by
  have hvalue := signedValue_toDigits v
  rw [← hvalue] at hlo hhi
  rw [toList_toString, integer?_signed Nat.toDigits_ne_nil isDigit_of_mem_toDigits hlo hhi, hvalue]

end VoxelEdit.Number

namespace VoxelEdit

open Number Text

/-- A whole number without a sign. -/
structure Numeral where
  digits : List Char
  nonempty : digits ≠ []
  digit : ∀ c ∈ digits, c.isDigit = true

/-- A name: a letter or an underscore, then letters, digits and underscores. -/
structure Identifier where
  first : Char
  rest : List Char
  starts : (first.isAlpha || first = '_') = true
  word : ∀ c ∈ rest, isWord c = true

/-- The numeral of a number, as it is printed. -/
def Numeral.ofNat (n : Nat) : Numeral where
  digits := Nat.toDigits 10 n
  nonempty := Nat.toDigits_ne_nil
  digit := isDigit_of_mem_toDigits

/-- The double nearest to a numeral. -/
def Numeral.value (n : Numeral) : Float := unsignedValue (digitsValue n.digits) 0

/-- The characters of a name. -/
def Identifier.chars (x : Identifier) : List Char := x.first :: x.rest

/-- A name as text. -/
def Identifier.name (x : Identifier) : String := String.ofList x.chars

theorem Identifier.isWord (x : Identifier) : ∀ c ∈ x.chars, Text.isWord c = true := by
  intro c hc
  rcases List.mem_cons.1 hc with rfl | hrest
  · have hstarts := x.starts
    rw [isNameStart_iff] at hstarts
    rw [isWord_iff]
    omega
  · exact x.word c hrest

end VoxelEdit
