import VoxelEdit.Number.Binary

/-!
# Decimal text of numbers

Reading: `Literal.parse?` accepts an optional sign and then `inf`, `infinity` or `nan` in any
case, or digits with at most one point and an optional exponent; `Literal.toBits` rounds a
literal to the nearest float of a format. `integer?` reads whole numbers.

Writing: `shortest` finds the fewest digits that read back to a float, the nearest such
decimal if there are several, and `positional` lays them out without an exponent.
-/

namespace VoxelEdit.Number

/-- The value of a digit string, most significant first. -/
def digitsValue (cs : List Char) : Nat :=
  cs.foldl (fun n c => 10 * n + (c.toNat - '0'.toNat)) 0

/-- Splits an optional sign from the front; the flag says whether it was a minus. -/
def splitSign : List Char → Bool × List Char
  | '-' :: cs => (true, cs)
  | '+' :: cs => (false, cs)
  | cs => (false, cs)

/-- A natural number: one or more ASCII digits and nothing else. -/
def natural? (cs : List Char) : Option Nat :=
  if cs.isEmpty || !cs.all Char.isDigit then none else some (digitsValue cs)

/-- A whole number between `lo` and `hi`: an optional sign, then digits. -/
def integer? (lo hi : Int) (cs : List Char) : Option Int := do
  let (negative, digits) := splitSign cs
  let n ← natural? digits
  let v : Int := if negative then -n else n
  if lo ≤ v && v ≤ hi then some v else none

/-- A natural number up to `hi`: an optional plus sign, then digits. -/
def bounded? (hi : Nat) (cs : List Char) : Option Nat := do
  let digits := match cs with
    | '+' :: rest => rest
    | _ => cs
  let n ← natural? digits
  if n ≤ hi then some n else none

/-- The text of a number read as a decimal: `± mantissa * 10 ^ exponent`. -/
inductive Literal where
  | nan
  | infinite (negative : Bool)
  | decimal (negative : Bool) (mantissa : Nat) (exponent : Int)
deriving DecidableEq, Repr

namespace Literal

/-- The exponent at the end of a decimal: empty, or `e`, a sign and digits. -/
def exponent? : List Char → Option Int
  | [] => some 0
  | c :: cs =>
    if c = 'e' || c = 'E' then
      let (negative, digits) := splitSign cs
      (natural? digits).map fun n => if negative then -(n : Int) else n
    else none

/-- An unsigned decimal: digits, a point, digits, an exponent; some digit must be there. -/
def unsigned? (negative : Bool) (cs : List Char) : Option Literal := do
  let whole := cs.takeWhile Char.isDigit
  let rest := cs.dropWhile Char.isDigit
  let (fraction, tail) := match rest with
    | '.' :: r => (r.takeWhile Char.isDigit, r.dropWhile Char.isDigit)
    | _ => ([], rest)
  if whole.isEmpty && fraction.isEmpty then none
  else
    let e ← exponent? tail
    some (.decimal negative (digitsValue (whole ++ fraction)) (e - fraction.length))

/-- Reads the text of a float. -/
def parse? (cs : List Char) : Option Literal :=
  let (negative, rest) := splitSign cs
  let word := String.ofList (rest.map Char.toLower)
  if word = "inf" || word = "infinity" then some (.infinite negative)
  else if word = "nan" then some .nan
  else unsigned? negative rest

/-- Decimal exponents past this bound are zero or infinite in every format here. -/
def exponentBound : Int := 400

/-- The bits of the float nearest to a literal. -/
def toBits (f : Format) : Literal → Nat
  | .nan => f.nanBits
  | .infinite negative => (if negative then f.signBit else 0) + f.infinityBits
  | .decimal negative m e =>
    let top : Int := e + (Nat.toDigits 10 m).length
    let magnitude :=
      if m = 0 || top < -exponentBound then 0
      else if top > exponentBound then f.infinityBits
      else if e < 0 then f.ofRatio m (pow10 (-e).toNat)
      else f.ofRatio (m * pow10 e.toNat) 1
    (if negative then f.signBit else 0) + magnitude

end Literal

/-- Reads a double from its decimal text. -/
def double? (cs : List Char) : Option Float :=
  (Literal.parse? cs).map fun l => Float.ofBits (l.toBits double).toUInt64

/-- A power of ten times a natural compared with a power of two times a natural, as the two
naturals to compare. -/
def scaled (m : Nat) (two ten : Int) : Nat × Nat :=
  (m * pow2 two.toNat * pow10 (-ten).toNat, pow2 (-two).toNat * pow10 ten.toNat)

/-- Digits and the exponent of their last place. -/
structure Digits where
  value : Nat
  place : Int
deriving DecidableEq, Repr

/-- The digits of `± m * 2 ^ q` on the grid of multiples of `10 ^ place`, if one of the two
neighbours of the value there reads back to it. The reals that read back lie strictly within
half a unit, ends included for an even significand; below a power of two the gap is half as
wide. -/
def onGrid (f : Format) (m : Nat) (q : Int) (place : Int) : Option Digits :=
  -- in quarters of a unit of the last bit
  let (num, den) := scaled (4 * m) (q - 2) place
  let (gap, _) := scaled 1 (q - 2) place
  let narrow := m = pow2 f.fraction && q > f.minScale
  let low := num - (if narrow then gap else 2 * gap)
  let high := num + 2 * gap
  let inside (n : Nat) : Bool :=
    let v := n * den
    if m % 2 = 0 then low ≤ v && v ≤ high else low < v && v < high
  let down := num / den
  let up := down + 1
  match inside down && down > 0, inside up with
  | true, true =>
    some ⟨if 2 * (num % den) < den then down else up, place⟩
  | true, false => some ⟨down, place⟩
  | false, true => some ⟨up, place⟩
  | false, false => none

/-- The first place, going down from `place`, whose grid holds a decimal that reads back. -/
def searchGrid (f : Format) (m : Nat) (q : Int) : Nat → Int → Digits
  | 0, place => (onGrid f m q place).getD ⟨m, 0⟩
  | n + 1, place =>
    match onGrid f m q place with
    | some d => d
    | none => searchGrid f m q n (place - 1)

/-- The fewest digits that read back to `m * 2 ^ q`, for a positive significand. -/
def shortest (f : Format) (m : Nat) (q : Int) : Digits :=
  -- an estimate at or above the place of the leading digit
  let top : Int := ((m.log2 : Int) + q) * 30103 / 100000 + 1
  searchGrid f m q 20 top

/-- Digits without an exponent: whole numbers have no point. -/
def positional (d : Digits) : String :=
  let cs := Nat.toDigits 10 d.value
  if d.place ≥ 0 then String.ofList (cs ++ List.replicate d.place.toNat '0')
  else
    let cut := (-d.place).toNat
    let padded := List.replicate (cut + 1 - cs.length) '0' ++ cs
    let whole := padded.take (padded.length - cut)
    let fraction := padded.drop (padded.length - cut)
    let kept := (fraction.reverse.dropWhile (· = '0')).reverse
    String.ofList (if kept.isEmpty then whole else whole ++ '.' :: kept)

/-- The text of a float: shortest digits, never an exponent, no point for a whole number. -/
def Datum.text (f : Format) : Datum → String
  | .nan => "NaN"
  | .infinite negative => if negative then "-inf" else "inf"
  | .finite negative m q =>
    (if negative then "-" else "") ++ (if m = 0 then "0" else positional (shortest f m q))

/-- The text of a double. -/
def text (x : Float) : String := (datum x).text double

end VoxelEdit.Number
