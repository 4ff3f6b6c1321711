import VoxelEdit.Proofs.CharacterClasses
import VoxelEdit.Text.Blank
import VoxelEdit.Text.Bytes

/-!
# Byte offsets in a text

A place in a text is known by the bytes before it. Not every number of bytes is a place: a character
past the first 128 takes several bytes, all of them past the first 128 as well.

* `bytesOf`: the bytes of characters. A class that does not tell characters past the first 128 apart
  (`Coarse`) runs on over bytes as far as over characters (`takeWhile_bytesOf`).
* `slice?`: the characters between two offsets, if both are places (`slice?_eq_some_iff`).
* `pass_wide`: a scan that passes over bytes past the first 128 passes over whole characters.
-/

namespace VoxelEdit.Text

variable {c : Char} {cs : List Char}

/-! ## Lengths -/

@[simp] theorem byteLength_nil : byteLength [] = 0 := rfl

theorem foldl_utf8Size (n : Nat) (cs : List Char) :
    cs.foldl (fun n c => n + c.utf8Size) n = n + byteLength cs := by
  unfold byteLength
  induction cs generalizing n with
  | nil => simp
  | cons c cs ih =>
    rw [List.foldl_cons, List.foldl_cons, ih, ih (0 + c.utf8Size)]
    omega

@[simp] theorem byteLength_cons (c : Char) (cs : List Char) :
    byteLength (c :: cs) = c.utf8Size + byteLength cs := by
  rw [byteLength, List.foldl_cons, foldl_utf8Size, Nat.zero_add]

@[simp] theorem byteLength_append (cs ds : List Char) :
    byteLength (cs ++ ds) = byteLength cs + byteLength ds := by
  induction cs with
  | nil => simp
  | cons c cs ih => simp [ih, Nat.add_assoc]

theorem byteLength_pos (h : cs ≠ []) : 0 < byteLength cs := by
  obtain ⟨c, cs, rfl⟩ := List.exists_cons_of_ne_nil h
  have hc : 0 < c.utf8Size := c.utf8Size_pos
  rw [byteLength_cons]
  omega

/-! ## Bytes -/

/-- The bytes of characters in UTF-8. -/
def bytesOf (cs : List Char) : List UInt8 := cs.flatMap String.utf8EncodeChar

/-- The character that has a byte as its number. -/
def ofByte (b : UInt8) : Char := Char.ofNat b.toNat

@[simp] theorem bytesOf_nil : bytesOf [] = [] := rfl

theorem bytesOf_cons (c : Char) (cs : List Char) :
    bytesOf (c :: cs) = String.utf8EncodeChar c ++ bytesOf cs := List.flatMap_cons

@[simp] theorem bytesOf_append (cs ds : List Char) :
    bytesOf (cs ++ ds) = bytesOf cs ++ bytesOf ds := List.flatMap_append

@[simp] theorem length_bytesOf (cs : List Char) : (bytesOf cs).length = byteLength cs := by
  induction cs with
  | nil => rfl
  | cons c cs ih => simp [bytesOf_cons, ih]

theorem utf8_eq_bytesOf (s : String) : utf8 s = bytesOf s.toList := by
  have hbytes : s.toUTF8 = (bytesOf s.toList).toByteArray := by
    rw [String.toUTF8_eq_toByteArray, ← String.utf8Encode_toList]
    rfl
  rw [utf8, hbytes, List.data_toByteArray]

theorem byteLength_toList (s : String) : byteLength s.toList = s.utf8ByteSize := by
  rw [← length_bytesOf, ← utf8_eq_bytesOf]
  exact Array.length_toList

theorem toNat_ofByte (b : UInt8) : (ofByte b).toNat = b.toNat := by
  have hb := b.toNat_lt
  have hvalid : b.toNat.isValidChar := .inl (by omega)
  rw [ofByte, Char.ofNat, dif_pos hvalid]
  rfl

/-- One of the first 128 characters is a single byte, which has its number. -/
theorem encode_narrow (h : c.toNat < 128) :
    ∃ b, String.utf8EncodeChar c = [b] ∧ ofByte b = c := by
  have hsmall : c.val.toNat ≤ 0x7F := Nat.le_of_lt_succ h
  refine ⟨UInt8.ofNat c.toNat, ?_, ?_⟩
  · unfold String.utf8EncodeChar
    exact if_pos hsmall
  · rw [ofByte, UInt8.toNat_ofNat_of_lt' (show c.toNat < 256 by omega), Char.ofNat_toNat]

/-- All bytes of a character past the first 128 are past them, too. -/
theorem encode_wide (h : 128 ≤ c.toNat) :
    ∀ b ∈ String.utf8EncodeChar c, 128 ≤ (ofByte b).toNat := by
  have hwide : ¬ c.val.toNat ≤ 0x7F := Nat.not_le.2 h
  have hbyte (n : Nat) (hn : 128 ≤ n) (hn' : n < 256) : 128 ≤ (ofByte (UInt8.ofNat n)).toNat := by
    rw [toNat_ofByte, UInt8.toNat_ofNat_of_lt' hn']
    exact hn
  unfold String.utf8EncodeChar
  dsimp only
  rw [if_neg hwide]
  split
  · simp only [List.forall_mem_cons]
    exact ⟨hbyte _ (by omega) (by omega), hbyte _ (by omega) (by omega), List.forall_mem_nil _⟩
  split
  · simp only [List.forall_mem_cons]
    exact ⟨hbyte _ (by omega) (by omega), hbyte _ (by omega) (by omega),
      hbyte _ (by omega) (by omega), List.forall_mem_nil _⟩
  · simp only [List.forall_mem_cons]
    exact ⟨hbyte _ (by omega) (by omega), hbyte _ (by omega) (by omega),
      hbyte _ (by omega) (by omega), hbyte _ (by omega) (by omega), List.forall_mem_nil _⟩

theorem utf8Size_narrow (h : c.toNat < 128) : c.utf8Size = 1 := by
  obtain ⟨b, hb, -⟩ := encode_narrow h
  rw [← String.length_utf8EncodeChar, hb]
  rfl

theorem bytesOf_narrow (h : c.toNat < 128) (cs : List Char) :
    ∃ b, bytesOf (c :: cs) = b :: bytesOf cs ∧ ofByte b = c := by
  obtain ⟨b, hb, hc⟩ := encode_narrow h
  exact ⟨b, by rw [bytesOf_cons, hb]; rfl, hc⟩

/-- **The first byte of a text** is its first character, or both are past the first 128. -/
theorem first_byte (c : Char) (cs : List Char) : ∃ b rest, bytesOf (c :: cs) = b :: rest ∧
    (ofByte b = c ∧ c.toNat < 128 ∧ rest = bytesOf cs ∨ 128 ≤ (ofByte b).toNat ∧ 128 ≤ c.toNat) := by
  rw [bytesOf_cons]
  by_cases h : c.toNat < 128
  · obtain ⟨b, hb, hc⟩ := encode_narrow h
    rw [hb]
    exact ⟨b, bytesOf cs, rfl, .inl ⟨hc, h, rfl⟩⟩
  · have hwide : 128 ≤ c.toNat := Nat.le_of_not_lt h
    obtain ⟨b, bs, hb⟩ := List.exists_cons_of_ne_nil (String.utf8EncodeChar_ne_nil (c := c))
    have hfirst : 128 ≤ (ofByte b).toNat := encode_wide hwide b (hb ▸ List.mem_cons_self)
    rw [hb]
    exact ⟨b, bs ++ bytesOf cs, rfl, .inr ⟨hfirst, hwide⟩⟩

/-! ## Classes -/

/-- All characters past the first 128 are in a class, or none is. -/
def Coarse (f : Char → Bool) : Prop := ∃ k, ∀ c : Char, 128 ≤ c.toNat → f c = k

section

variable {f : Char → Bool}

theorem isWord_wide (h : 128 ≤ c.toNat) : isWord c = false := by
  rw [← Bool.not_eq_true, isWord_iff]
  omega

theorem isAlpha_wide (h : 128 ≤ c.toNat) : c.isAlpha = false := by
  rw [← Bool.not_eq_true, isAlpha_iff]
  omega

theorem isDigit_wide (h : 128 ≤ c.toNat) : c.isDigit = false := by
  rw [← Bool.not_eq_true, isDigit_iff]
  omega

theorem isDigitOrPoint_wide (h : 128 ≤ c.toNat) : isDigitOrPoint c = false := by
  rw [← Bool.not_eq_true, isDigitOrPoint_iff]
  omega

theorem isWord_coarse : Coarse isWord := ⟨false, fun _ => isWord_wide⟩

theorem isAlpha_coarse : Coarse Char.isAlpha := ⟨false, fun _ => isAlpha_wide⟩

theorem isDigitOrPoint_coarse : Coarse isDigitOrPoint := ⟨false, fun _ => isDigitOrPoint_wide⟩

/-- One of the first 128 characters is none past them. -/
theorem ne_of_wide {a : Char} (hc : 128 ≤ c.toNat) (ha : a.toNat < 128) : c ≠ a := by
  rintro rfl
  omega

theorem ne_coarse {a : Char} (ha : a.toNat < 128) : Coarse fun c => c ≠ a :=
  ⟨true, fun _ hc => decide_eq_true (ne_of_wide hc ha)⟩

/-- A byte is in a class if its character is. -/
theorem Coarse.byte (hf : Coarse f) : ∀ b ∈ String.utf8EncodeChar c, f (ofByte b) = f c := by
  obtain ⟨k, hk⟩ := hf
  intro b hb
  by_cases h : c.toNat < 128
  · obtain ⟨b', hb', hc⟩ := encode_narrow h
    rw [hb', List.mem_singleton] at hb
    rw [hb, hc]
  · rw [hk _ (encode_wide (Nat.le_of_not_lt h) b hb), hk _ (Nat.le_of_not_lt h)]

/-- The first byte is in a class if the first character is. -/
theorem head?_bytesOf (hf : Coarse f) (cs : List Char) :
    ((bytesOf cs).head?.map ofByte).map f = cs.head?.map f := by
  cases cs with
  | nil => rfl
  | cons c cs =>
    obtain ⟨b, bs, hb⟩ := List.exists_cons_of_ne_nil (String.utf8EncodeChar_ne_nil (c := c))
    have hc : f (ofByte b) = f c := hf.byte b (hb ▸ List.mem_cons_self)
    simp [bytesOf_cons, hb, hc]

/-- **A run of bytes in a class** is the bytes of a run of characters. -/
theorem takeWhile_bytesOf (hf : Coarse f) (cs : List Char) :
    (bytesOf cs).takeWhile (fun b => f (ofByte b)) = bytesOf (cs.takeWhile f) := by
  induction cs with
  | nil => rfl
  | cons c cs ih =>
    rw [bytesOf_cons]
    cases hc : f c with
    | true =>
      have hall : ∀ b ∈ String.utf8EncodeChar c, f (ofByte b) = true := by
        intro b hb
        rw [hf.byte b hb, hc]
      rw [List.takeWhile_append_of_pos hall, ih, List.takeWhile_cons_of_pos hc, bytesOf_cons]
    | false =>
      obtain ⟨b, bs, hb⟩ := List.exists_cons_of_ne_nil (String.utf8EncodeChar_ne_nil (c := c))
      have hfirst : f (ofByte b) = false := by rw [hf.byte b (hb ▸ List.mem_cons_self), hc]
      rw [List.takeWhile_cons_of_neg (by simp [hc]), hb, List.cons_append,
        List.takeWhile_cons_of_neg (by simp [hfirst])]
      rfl

end

/-! ## Passing over characters -/

section

variable {α : Type} (scan : List UInt8 → Nat → α) {pos : Nat}

/-- A scan that passes over bytes past the first 128 passes over many of them. -/
theorem pass_bytes (h : ∀ b rest pos, 128 ≤ (ofByte b).toNat → scan (b :: rest) pos = scan rest (pos + 1))
    {bs : List UInt8} (hbs : ∀ b ∈ bs, 128 ≤ (ofByte b).toNat) (rest : List UInt8) (pos : Nat) :
    scan (bs ++ rest) pos = scan rest (pos + bs.length) := by
  induction bs generalizing pos with
  | nil => rfl
  | cons b bs ih =>
    obtain ⟨hb, hbs⟩ := List.forall_mem_cons.1 hbs
    rw [List.cons_append, h b _ _ hb, ih hbs, List.length_cons]
    congr 1
    omega

/-- **It passes over whole characters.** -/
theorem pass_wide (h : ∀ b rest pos, 128 ≤ (ofByte b).toNat → scan (b :: rest) pos = scan rest (pos + 1))
    (hc : 128 ≤ c.toNat) : scan (bytesOf (c :: cs)) pos = scan (bytesOf cs) (pos + c.utf8Size) := by
  rw [bytesOf_cons, pass_bytes scan h (encode_wide hc), String.length_utf8EncodeChar]

/-- Behind the first byte of a character it passes over the rest of that character. -/
theorem pass_tail (h : ∀ b rest pos, 128 ≤ (ofByte b).toNat → scan (b :: rest) pos = scan rest (pos + 1))
    (c : Char) (cs : List Char) (pos : Nat) :
    scan ((bytesOf (c :: cs)).drop 1) (pos + 1) = scan (bytesOf cs) (pos + c.utf8Size) := by
  obtain ⟨b, bs, hb⟩ := List.exists_cons_of_ne_nil (String.utf8EncodeChar_ne_nil (c := c))
  have hsize : c.utf8Size = bs.length + 1 := by
    rw [← String.length_utf8EncodeChar, hb, List.length_cons]
  have hwide : ∀ b ∈ bs, 128 ≤ (ofByte b).toNat := by
    by_cases hc : c.toNat < 128
    · obtain ⟨b', hb', -⟩ := encode_narrow hc
      rw [hb] at hb'
      rw [(List.cons.inj hb').2]
      exact List.forall_mem_nil _
    · intro b' hb'
      exact encode_wide (Nat.le_of_not_lt hc) b' (hb ▸ List.mem_cons_of_mem _ hb')
  rw [bytesOf_cons, hb, List.cons_append, List.drop_succ_cons, List.drop_zero, pass_bytes scan h hwide, hsize]
  congr 1
  omega

end

/-! ## Slices -/

/-- The characters before the offset `n` and those behind it, if it is a place in the text. -/
def splitBytes? : (n : Nat) → List Char → Option (List Char × List Char)
  | 0, cs => some ([], cs)
  | _ + 1, [] => none
  | n + 1, c :: cs =>
    if c.utf8Size ≤ n + 1 then
      (splitBytes? (n + 1 - c.utf8Size) cs).map fun (front, back) => (c :: front, back)
    else none

/-- The characters between two offsets, if both are places in the text and in this order. -/
def slice? (lo hi : Nat) (cs : List Char) : Option (List Char) := do
  let (front, _) ← splitBytes? hi cs
  let (_, middle) ← splitBytes? lo front
  return middle

theorem splitBytes?_eq_some_iff {n : Nat} {front back : List Char} :
    splitBytes? n cs = some (front, back) ↔ cs = front ++ back ∧ byteLength front = n := by
  fun_induction splitBytes? n cs generalizing front with
  | case1 cs =>
    constructor
    · rintro ⟨⟩
      exact ⟨rfl, rfl⟩
    · rintro ⟨rfl, h⟩
      cases front with
      | nil => rfl
      | cons c front =>
        have := c.utf8Size_pos
        rw [byteLength_cons] at h
        omega
  | case2 n =>
    simp only [reduceCtorEq, false_iff, not_and, List.nil_eq_append_iff]
    rintro ⟨rfl, rfl⟩
    exact Nat.ne_of_lt (Nat.succ_pos n)
  | case3 n c cs hc ih =>
    simp only [Option.map_eq_some_iff, Prod.mk.injEq, Prod.exists]
    constructor
    · rintro ⟨front', back', h, rfl, rfl⟩
      obtain ⟨rfl, hlength⟩ := ih.1 h
      refine ⟨rfl, ?_⟩
      rw [byteLength_cons, hlength]
      omega
    · rintro ⟨h, hlength⟩
      cases front with
      | nil => exact absurd hlength (Nat.succ_ne_zero n).symm
      | cons d front =>
        obtain ⟨rfl, rfl⟩ := List.cons.inj h
        rw [byteLength_cons] at hlength
        exact ⟨front, back, ih.2 ⟨rfl, by omega⟩, rfl, rfl⟩
  | case4 n c cs hc =>
    simp only [reduceCtorEq, false_iff, not_and]
    rintro h
    cases front with
    | nil => exact (Nat.succ_ne_zero n).symm
    | cons d front =>
      obtain ⟨rfl, rfl⟩ := List.cons.inj h
      rw [byteLength_cons]
      omega

/-- **What a slice is**: characters of the text that stand between its two offsets. -/
theorem slice?_eq_some_iff {lo hi : Nat} {middle : List Char} : slice? lo hi cs = some middle ↔
    ∃ front back, cs = front ++ middle ++ back ∧ byteLength front = lo ∧
      byteLength front + byteLength middle = hi := by
  simp only [slice?, Option.bind_eq_bind, Option.bind_eq_some_iff, splitBytes?_eq_some_iff,
    Option.pure_def, Option.some.injEq, Prod.exists]
  constructor
  · rintro ⟨whole, back, ⟨rfl, hhi⟩, front, _, ⟨rfl, hlo⟩, rfl⟩
    exact ⟨front, back, rfl, hlo, by rw [← byteLength_append, hhi]⟩
  · rintro ⟨front, back, rfl, hlo, hhi⟩
    exact ⟨front ++ middle, back, ⟨rfl, by rw [byteLength_append, hhi]⟩, front, middle, ⟨rfl, hlo⟩, rfl⟩

end VoxelEdit.Text
