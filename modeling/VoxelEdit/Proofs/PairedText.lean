import Mathlib.Tactic.Set
import Mathlib.Tactic.SplitIfs
import VoxelEdit.Text.Bytes

/-!
# The paired form of text

Any text is read back from its paired form (`ofPaired?_paired`). A reader tries UTF-8 first. That
does no harm: where the paired form is UTF-8, it is the UTF-8 of the same text, for the two forms
differ in the null character, whose two bytes are no UTF-8, and past the first plane, where the
paired form has surrogates.
-/

namespace VoxelEdit.Text

variable {rest : List UInt8} {taken : List Char} {k : Nat}

/-! ## Bytes -/

theorem toNat_ofNat_of_lt (hk : k < 256) : (UInt8.ofNat k).toNat = k := UInt8.toNat_ofNat_of_lt' hk

/-- A continuation byte. -/
theorem continuation?_ofNat {y : Nat} (hy : y < 64) :
    continuation? (UInt8.ofNat (0x80 + y)) = some y := by
  have hn : (UInt8.ofNat (0x80 + y)).toNat = 0x80 + y := toNat_ofNat_of_lt (by omega)
  have hrange : (0x80 ≤ UInt8.ofNat (0x80 + y) && UInt8.ofNat (0x80 + y) < 0xC0) = true := by
    rw [Bool.and_eq_true, decide_eq_true_eq, decide_eq_true_eq, UInt8.le_iff_toNat_le,
      UInt8.lt_iff_toNat_lt, hn]
    exact ⟨Nat.le_add_right _ _, show 0x80 + y < 0xC0 by omega⟩
  rw [continuation?, if_pos hrange, hn, Nat.add_sub_cancel_left]

/-- What is asked of a first byte, as questions about its number. -/
theorem lead_iff (hk : k < 256) : (UInt8.ofNat k = 0 ↔ k = 0) ∧ (UInt8.ofNat k < 0x80 ↔ k < 0x80) ∧
    (UInt8.ofNat k = 0xC0 ↔ k = 0xC0) ∧
    ((0xC2 ≤ UInt8.ofNat k && UInt8.ofNat k < 0xE0) = true ↔ 0xC2 ≤ k ∧ k < 0xE0) ∧
    ((0xE0 ≤ UInt8.ofNat k && UInt8.ofNat k < 0xF0) = true ↔ 0xE0 ≤ k ∧ k < 0xF0) := by
  simp only [← UInt8.toNat_inj, UInt8.le_iff_toNat_le, UInt8.lt_iff_toNat_lt, Bool.and_eq_true,
    decide_eq_true_eq, toNat_ofNat_of_lt hk]
  exact ⟨Iff.rfl, Iff.rfl, Iff.rfl, Iff.rfl, Iff.rfl⟩

/-! ## Reading one character -/

theorem unpairInto_zero : unpairInto (0 :: rest) taken = none := by
  rw [unpairInto.eq_def]
  rfl

theorem unpairInto_one (h0 : 0 < k) (h : k < 0x80) :
    unpairInto (UInt8.ofNat k :: rest) taken = unpairInto rest (Char.ofNat k :: taken) := by
  obtain ⟨c0, c1, -⟩ := lead_iff (k := k) (by omega)
  rw [unpairInto.eq_def]
  dsimp only
  rw [if_neg (mt c0.1 (by omega)), if_pos (c1.2 h), toNat_ofNat_of_lt (by omega)]

theorem unpairInto_two {x y : Nat} (hx : 2 ≤ x) (hx' : x < 32) (hy : y < 64) :
    unpairInto (UInt8.ofNat (0xC0 + x) :: UInt8.ofNat (0x80 + y) :: rest) taken =
      unpairInto rest (Char.ofNat (x * 64 + y) :: taken) := by
  obtain ⟨c0, c1, c2, c3, -⟩ := lead_iff (k := 0xC0 + x) (by omega)
  rw [unpairInto.eq_def]
  dsimp only
  rw [if_neg (mt c0.1 (by omega)), if_neg (mt c1.1 (by omega)), if_neg (mt c2.1 (by omega)),
    if_pos (c3.2 (by omega)), continuation?_ofNat hy, toNat_ofNat_of_lt (by omega),
    Nat.add_sub_cancel_left]
  rfl

/-- A unit of three bytes, up to the question whether it is a surrogate. -/
theorem unpairInto_unit {n : Nat} (h : 0x800 ≤ n) (h' : n < 0x10000) :
    unpairInto (unitBytes n ++ rest) taken =
      if n < 0xD800 || 0xE000 ≤ n then unpairInto rest (Char.ofNat n :: taken)
      else if n < 0xDC00 then
        match rest with
        | d :: e :: g :: last => do
          let v ← continuation? e
          let w ← continuation? g
          if d = 0xED && 0x30 ≤ v then
            let low := (v - 0x30) * 64 + w
            unpairInto last (Char.ofNat (0x10000 + (n - 0xD800) * 1024 + low) :: taken)
          else none
        | _ => none
      else none := by
  have hn : (0xE0 + n / 4096 - 0xE0) * 4096 + n / 64 % 64 * 64 + n % 64 = n := by omega
  obtain ⟨c0, c1, c2, c3, c4⟩ := lead_iff (k := 0xE0 + n / 4096) (by omega)
  unfold unitBytes
  rw [List.cons_append, List.cons_append, List.cons_append, List.nil_append, unpairInto.eq_def]
  dsimp only
  rw [if_neg (mt c0.1 (by omega)), if_neg (mt c1.1 (by omega)), if_neg (mt c2.1 (by omega)),
    if_neg (mt c3.1 (by omega)), if_pos (c4.2 (by omega)),
    continuation?_ofNat (Nat.mod_lt _ (by omega)), continuation?_ofNat (Nat.mod_lt _ (by omega)),
    toNat_ofNat_of_lt (by omega)]
  simp only [Option.bind_eq_bind, Option.bind_some, hn]
  exact if_neg (by omega)

theorem unpairInto_three {n : Nat} (h : 0x800 ≤ n) (h' : n < 0x10000)
    (hs : n < 0xD800 ∨ 0xE000 ≤ n) :
    unpairInto (unitBytes n ++ rest) taken = unpairInto rest (Char.ofNat n :: taken) := by
  rw [unpairInto_unit h h', if_pos (by simpa using hs)]

theorem unpairInto_pair {m : Nat} (h : m < 0x100000) :
    unpairInto (unitBytes (0xD800 + m / 1024) ++ (unitBytes (0xDC00 + m % 1024) ++ rest)) taken =
      unpairInto rest (Char.ofNat (0x10000 + m) :: taken) := by
  set low := 0xDC00 + m % 1024 with hlow
  have hd : 0xE0 + low / 4096 = 0xED := by omega
  have hchar : 0x10000 + (0xD800 + m / 1024 - 0xD800) * 1024 +
      ((low / 64 % 64 - 0x30) * 64 + low % 64) = 0x10000 + m := by omega
  rw [unpairInto_unit (by omega) (by omega), if_neg (by simp; omega), if_pos (by omega)]
  unfold unitBytes
  simp only [List.cons_append, List.nil_append, Option.bind_eq_bind, Option.bind_some, hd, hchar,
    continuation?_ofNat (Nat.mod_lt _ (show 0 < 64 by omega))]
  rw [if_pos (by simp; omega)]

theorem unpairInto_four (h : 0xF0 ≤ k) (h' : k < 256) :
    unpairInto (UInt8.ofNat k :: rest) taken = none := by
  obtain ⟨c0, c1, c2, c3, c4⟩ := lead_iff h'
  rw [unpairInto.eq_def]
  dsimp only
  rw [if_neg (mt c0.1 (by omega)), if_neg (mt c1.1 (by omega)), if_neg (mt c2.1 (by omega)),
    if_neg (mt c3.1 (by omega)), if_neg (mt c4.1 (by omega))]

/-- A character is no surrogate and lies in one of seventeen planes. -/
theorem char_range (c : Char) :
    (c.toNat < 0xD800 ∨ 0xE000 ≤ c.toNat) ∧ c.toNat < 0x110000 := by
  rcases c.valid with h | ⟨h, h'⟩
  · exact ⟨.inl h, by show c.val.toNat < _; omega⟩
  · exact ⟨.inr h, h'⟩

/-- **A character is read back from its paired form.** -/
theorem unpairInto_pairedChar (c : Char) :
    unpairInto (pairedChar c ++ rest) taken = unpairInto rest (c :: taken) := by
  obtain ⟨hs, hmax⟩ := char_range c
  have hc : Char.ofNat c.toNat = c := Char.ofNat_toNat c
  unfold pairedChar
  dsimp only
  split_ifs with h0 h1 h2 h3
  · rw [← hc, h0, List.cons_append, List.cons_append, List.nil_append, unpairInto.eq_def]
    rfl
  · rw [List.cons_append, List.nil_append, unpairInto_one (by omega) h1, hc]
  · rw [List.cons_append, List.cons_append, List.nil_append,
      unpairInto_two (by omega) (by omega) (by omega), Nat.div_add_mod', hc]
  · rw [unpairInto_three (by omega) h3 hs, hc]
  · rw [List.append_assoc, unpairInto_pair (by omega), Nat.add_sub_cancel' (by omega), hc]

/-! ## Text -/

theorem unpairInto_flatMap (cs : List Char) :
    unpairInto (cs.flatMap pairedChar) taken = some (taken.reverse ++ cs) := by
  induction cs generalizing taken with
  | nil => rw [List.flatMap_nil, unpairInto, List.append_nil]
  | cons c cs ih =>
    rw [List.flatMap_cons, unpairInto_pairedChar, ih, List.reverse_cons, List.append_assoc,
      List.singleton_append]

/-- Reading the UTF-8 of a character as if it were its paired form: it is, or it is refused. -/
theorem unpairInto_utf8EncodeChar (c : Char) (rest : List UInt8) (taken : List Char) :
    unpairInto (String.utf8EncodeChar c ++ rest) taken = unpairInto rest (c :: taken) ∨
      unpairInto (String.utf8EncodeChar c ++ rest) taken = none := by
  have hval : c.val.toNat = c.toNat := rfl
  obtain ⟨-, hmax⟩ := char_range c
  by_cases h0 : c.toNat = 0
  · right
    unfold String.utf8EncodeChar
    rw [hval, h0, if_pos (by omega)]
    exact unpairInto_zero
  by_cases h4 : c.toNat < 0x10000
  · -- up to three bytes the two forms are the same
    left
    have hsame : String.utf8EncodeChar c = pairedChar c := by
      unfold String.utf8EncodeChar pairedChar unitBytes
      dsimp only
      rw [hval, if_neg h0]
      split_ifs <;> try omega
      · rfl
      · rw [Nat.mod_eq_of_lt (by omega), Nat.add_comm 0xC0, Nat.add_comm 0x80]
      · rw [Nat.mod_eq_of_lt (by omega), Nat.add_comm 0xE0, Nat.add_comm 0x80, Nat.add_comm 0x80]
    rw [hsame]
    exact unpairInto_pairedChar c
  · right
    unfold String.utf8EncodeChar
    rw [hval, if_neg (by omega), if_neg (by omega), if_neg (by omega), List.cons_append]
    exact unpairInto_four (by omega) (by omega)

theorem unpairInto_utf8Encode {cs ds : List Char}
    (h : unpairInto (cs.flatMap String.utf8EncodeChar) taken = some ds) :
    ds = taken.reverse ++ cs := by
  induction cs generalizing taken with
  | nil =>
    rw [List.flatMap_nil, unpairInto] at h
    rw [List.append_nil]
    exact (Option.some.inj h).symm
  | cons c cs ih =>
    rw [List.flatMap_cons] at h
    rcases unpairInto_utf8EncodeChar c (cs.flatMap String.utf8EncodeChar) taken with hc | hc <;>
      rw [hc] at h
    · rw [ih h, List.reverse_cons, List.append_assoc, List.singleton_append]
    · exact nomatch h

/-- **Any text is read back from its paired form.** -/
theorem ofPaired?_paired (s : String) : ofPaired? (paired s) = some s := by
  have hpaired : unpairInto (paired s) [] = some s.toList := unpairInto_flatMap s.toList
  unfold ofPaired?
  cases hu : ofUtf8? (paired s) with
  | none =>
    dsimp only
    rw [hpaired, Option.map_some, String.ofList_toList]
  | some t =>
    -- what is read as UTF-8 is the UTF-8 of `t`
    have ht : paired s = t.toList.flatMap String.utf8EncodeChar := by
      unfold ofUtf8? String.fromUTF8? at hu
      split at hu
      · rename_i hvalid
        have htext : t.toByteArray = ⟨(paired s).toArray⟩ := by
          rw [← Option.some.inj hu]
          rfl
        rw [← String.utf8Encode_toList, List.utf8Encode] at htext
        have hdata := congrArg (fun b => b.data.toList) htext
        rw [List.data_toByteArray] at hdata
        exact hdata.symm
      · exact nomatch hu
    rw [ht] at hpaired
    have := unpairInto_utf8Encode hpaired
    rw [List.reverse_nil, List.nil_append] at this
    exact congrArg some (String.toList_inj.1 this.symm)

end VoxelEdit.Text
