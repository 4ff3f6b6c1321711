/-!
# Bytes of words and text

Words are written in a fixed number of bytes, most or least significant first. A decoder
takes what it reads from the front of a byte list and hands on the rest; it fails on an
input that is too short.
-/

namespace VoxelEdit.Text

/-- The last `width` base-256 digits of `n`, least significant first. -/
def littleEndian : (width n : Nat) → List UInt8
  | 0, _ => []
  | w + 1, n => UInt8.ofNat (n % 256) :: littleEndian w (n / 256)

/-- The last `width` base-256 digits of `n`, most significant first. -/
def bigEndian (width n : Nat) : List UInt8 := (littleEndian width n).reverse

/-- The number whose base-256 digits, least significant first, are `bs`. -/
def ofLittleEndian : List UInt8 → Nat
  | [] => 0
  | b :: bs => b.toNat + 256 * ofLittleEndian bs

/-- Reads from the front of a byte list. -/
abbrev Decoder (α : Type) := StateT (List UInt8) Option α

namespace Decoder

/-- Splits off the first `n` bytes, reversed onto `taken`. -/
def splitFront : (n : Nat) → (bs taken : List UInt8) → Option (List UInt8 × List UInt8)
  | 0, bs, taken => some (taken.reverse, bs)
  | _ + 1, [], _ => none
  | n + 1, b :: bs, taken => splitFront n bs (b :: taken)

/-- The next `n` bytes. -/
def bytes (n : Nat) : Decoder (List UInt8) := fun bs => splitFront n bs []

/-- The next byte. -/
def byte : Decoder UInt8
  | [] => none
  | b :: bs => some (b, bs)

/-- A word of `width` bytes, least significant first. -/
def little (width : Nat) : Decoder Nat := do
  return ofLittleEndian (← bytes width)

/-- A word of `width` bytes, most significant first. -/
def big (width : Nat) : Decoder Nat := do
  return ofLittleEndian (← bytes width).reverse

/-- Reads `n` values in a row, after those in `taken` (which is reversed). -/
def repeatInto {α : Type} (item : Decoder α) : (n : Nat) → (taken : List α) → Decoder (List α)
  | 0, taken => pure taken.reverse
  | n + 1, taken => do repeatInto item n ((← item) :: taken)

/-- Reads `n` values in a row. -/
def many {α : Type} (n : Nat) (item : Decoder α) : Decoder (List α) := repeatInto item n []

end Decoder

/-- Text of valid UTF-8. -/
def ofUtf8? (bs : List UInt8) : Option String := String.fromUTF8? ⟨bs.toArray⟩

/-- The UTF-8 bytes of a text. -/
def utf8 (s : String) : List UInt8 := s.toUTF8.data.toList

/-! ## The paired form

A variant of UTF-8 for formats that count text in 16-bit units: the null character takes two
bytes, and a character past the first plane is written as two surrogates of three bytes. -/

/-- Three bytes for a 16-bit unit. -/
def unitBytes (n : Nat) : List UInt8 :=
  [UInt8.ofNat (0xE0 + n / 4096), UInt8.ofNat (0x80 + n / 64 % 64), UInt8.ofNat (0x80 + n % 64)]

/-- The paired form of a character. -/
def pairedChar (c : Char) : List UInt8 :=
  let n := c.toNat
  if n = 0 then [0xC0, 0x80]
  else if n < 0x80 then [UInt8.ofNat n]
  else if n < 0x800 then [UInt8.ofNat (0xC0 + n / 64), UInt8.ofNat (0x80 + n % 64)]
  else if n < 0x10000 then unitBytes n
  else
    let m := n - 0x10000
    unitBytes (0xD800 + m / 1024) ++ unitBytes (0xDC00 + m % 1024)

/-- The paired form of a text. -/
def paired (s : String) : List UInt8 := s.toList.flatMap pairedChar

/-- The low six bits of a continuation byte. -/
def continuation? (b : UInt8) : Option Nat :=
  if 0x80 ≤ b && b < 0xC0 then some (b.toNat - 0x80) else none

/-- Reads the paired form onto `taken`, which is reversed. A surrogate stands only in a pair,
and neither the null byte nor a four-byte sequence occurs. -/
def unpairInto : List UInt8 → (taken : List Char) → Option (List Char)
  | [], taken => some taken.reverse
  | a :: rest, taken =>
    if a = 0 then none
    else if a < 0x80 then unpairInto rest (Char.ofNat a.toNat :: taken)
    else if a = 0xC0 then
      match rest with
      | b :: tail => if b = 0x80 then unpairInto tail (Char.ofNat 0 :: taken) else none
      | [] => none
    else if 0xC2 ≤ a && a < 0xE0 then
      match rest with
      | b :: tail => do
        let y ← continuation? b
        unpairInto tail (Char.ofNat ((a.toNat - 0xC0) * 64 + y) :: taken)
      | [] => none
    else if 0xE0 ≤ a && a < 0xF0 then
      match rest with
      | b :: c :: tail => do
        let y ← continuation? b
        let z ← continuation? c
        let n := (a.toNat - 0xE0) * 4096 + y * 64 + z
        if n < 0x800 then none
        else if n < 0xD800 || 0xE000 ≤ n then unpairInto tail (Char.ofNat n :: taken)
        else if n < 0xDC00 then
          match tail with
          | d :: e :: g :: last => do
            let v ← continuation? e
            let w ← continuation? g
            if d = 0xED && 0x30 ≤ v then
              let low := (v - 0x30) * 64 + w
              unpairInto last (Char.ofNat (0x10000 + (n - 0xD800) * 1024 + low) :: taken)
            else none
          | _ => none
        else none
      | _ => none
    else none

/-- Text in UTF-8, or else in the paired form. -/
def ofPaired? (bs : List UInt8) : Option String :=
  match ofUtf8? bs with
  | some s => some s
  | none => (unpairInto bs []).map String.ofList

end VoxelEdit.Text
