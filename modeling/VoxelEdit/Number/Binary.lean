import VoxelEdit.Number.Width

/-!
# Binary floating-point formats

A float of width `w` is a bit pattern. `Format.decode` reads a pattern as a sign, a
natural significand `m` and a power of two `q` (the value is `m * 2 ^ q`), and
`Format.ofRatio` rounds a quotient of naturals to the nearest pattern, ties to the even
significand. Both work on naturals, so single and double precision share one text.

* `remainder`: the exact remainder of a truncated division of two doubles.
-/

namespace VoxelEdit.Number

/-- A binary format: the stored fraction bits and the exponent bits of a float. -/
structure Format where
  fraction : Nat
  exponent : Nat

/-- Single precision, 32 bits. -/
def single : Format := ⟨23, 8⟩

/-- Double precision, 64 bits. -/
def double : Format := ⟨52, 11⟩

/-- What a bit pattern stands for. A finite datum is `± significand * 2 ^ scale`. -/
inductive Datum where
  | nan
  | infinite (negative : Bool)
  | finite (negative : Bool) (significand : Nat) (scale : Int)
deriving DecidableEq, Repr

namespace Format

variable (f : Format)

/-- The power of two of a subnormal's last bit. -/
def minScale : Int := 2 - pow2 (f.exponent - 1) - f.fraction

/-- The magnitude bits of infinity. -/
def infinityBits : Nat := (pow2 f.exponent - 1) * pow2 f.fraction

/-- The bit that holds the sign. -/
def signBit : Nat := pow2 (f.fraction + f.exponent)

/-- The pattern written for a value that is not a number: quiet, positive. -/
def nanBits : Nat := f.infinityBits + pow2 (f.fraction - 1)

/-- Reads a bit pattern. -/
def decode (bits : Nat) : Datum :=
  let negative := bits / f.signBit % 2 == 1
  let magnitude := bits % f.signBit
  let stored := magnitude / pow2 f.fraction
  let low := magnitude % pow2 f.fraction
  if magnitude > f.infinityBits then .nan
  else if magnitude = f.infinityBits then .infinite negative
  else if stored = 0 then .finite negative low f.minScale
  else .finite negative (low + pow2 f.fraction) (f.minScale + stored - 1)

/-- The quotient `num / den` rounded to the nearest natural, a half to the even one. -/
def roundHalfEven (num den : Nat) : Nat :=
  let q := num / den
  let r := num % den
  if 2 * r > den || (2 * r == den && q % 2 == 1) then q + 1 else q

/-- The magnitude bits of the float nearest to `num / den`; too large a quotient is infinite. -/
def ofRatio (num den : Nat) : Nat :=
  if num = 0 || den = 0 then 0
  else
    let guess : Int := (num.log2 : Int) - den.log2
    let below := if guess < 0 then num * pow2 (-guess).toNat < den else num < den * pow2 guess.toNat
    let log := if below then guess - 1 else guess
    let scale := max (log - f.fraction) f.minScale
    let m := if scale < 0 then roundHalfEven (num * pow2 (-scale).toNat) den
      else roundHalfEven num (den * pow2 scale.toNat)
    let bits := (scale - f.minScale).toNat * pow2 f.fraction + m
    min bits f.infinityBits

/-- The pattern of a datum; a finite one is rounded if its significand is too wide. -/
def encode : Datum → Nat
  | .nan => f.nanBits
  | .infinite negative => (if negative then f.signBit else 0) + f.infinityBits
  | .finite negative m q =>
    (if negative then f.signBit else 0) +
      (if q < 0 then f.ofRatio m (pow2 (-q).toNat) else f.ofRatio (m * pow2 q.toNat) 1)

end Format

/-- The datum of a double. -/
def datum (x : Float) : Datum := double.decode x.toBits.toNat

/-- The double with the bits of a datum. -/
def ofDatum (d : Datum) : Float := Float.ofBits (double.encode d).toUInt64

/-- The exact remainder of `a` by `b`, with the sign of `a`. It is not a number when `a` is
infinite or `b` is zero, and `a` itself when `b` is infinite. -/
def remainder (a b : Float) : Float :=
  match datum a, datum b with
  | .nan, _ | _, .nan | .infinite _, _ => ofDatum .nan
  | .finite _ _ _, .infinite _ => a
  | .finite negative m p, .finite _ n q =>
    if n = 0 then ofDatum .nan
    else
      let low := min p q
      ofDatum (.finite negative (m * pow2 (p - low).toNat % (n * pow2 (q - low).toNat)) low)

end VoxelEdit.Number
