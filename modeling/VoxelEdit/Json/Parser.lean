import VoxelEdit.Json.Value
import VoxelEdit.Number.Decimal
import VoxelEdit.Text.Class

/-!
# Reading JSON

The strict form: no comments, no trailing commas, no leading zeros, no control characters in
strings, and nothing but blanks around the value.

Every function takes the characters to read and hands on those that follow what it read.
-/

namespace VoxelEdit.Json

open Number Text

/-- The four blanks that may stand between the parts of a value. A form feed is none of them. -/
def isGap (c : Char) : Bool := c = ' ' || c = '\t' || c = '\n' || c = '\r'

/-- Drops blanks in front. -/
def skip (cs : List Char) : List Char := cs.dropWhile isGap

/-- The value of four digits to the base sixteen. -/
def unit? : List Char → Option (Nat × List Char)
  | a :: b :: c :: d :: rest => do
    let n := (((← hexDigit? a) * 16 + (← hexDigit? b)) * 16 + (← hexDigit? c)) * 16 + (← hexDigit? d)
    some (n, rest)
  | _ => none

/-- Whether a 16-bit unit is the first half of a pair. -/
def isHigh (n : Nat) : Bool := 0xD800 ≤ n && n < 0xDC00

/-- Whether a 16-bit unit is the second half of a pair. -/
def isLow (n : Nat) : Bool := 0xDC00 ≤ n && n < 0xE000

/-- The character of an escaped unit, paired with a second one where it needs it. Half of a pair
is no character. -/
def unitChar (n : Nat) (rest : List Char) : Option Char × List Char :=
  if isHigh n then
    match rest with
    | '\\' :: 'u' :: more =>
      match unit? more with
      | some (m, after) =>
        if isLow m then (some (Char.ofNat (0x10000 + (n - 0xD800) * 0x400 + (m - 0xDC00))), after)
        else (none, rest)
      | none => (none, rest)
    | _ => (none, rest)
  else if isLow n then (none, rest)
  else (some (Char.ofNat n), rest)

/-- What a backslash and a letter stand for. -/
def escape? (c : Char) : Option Char :=
  [('"', '"'), ('\\', '\\'), ('/', '/'), ('b', '\x08'), ('f', '\x0c'), ('n', '\n'), ('r', '\r'),
    ('t', '\t')].lookup c

/-- A string up to its closing quote, onto `taken`, which is reversed and missing once something
was no character; `limit` bounds the characters. -/
def stringInto : (limit : Nat) → List Char → (taken : Option (List Char)) →
    Option (Option String × List Char)
  | 0, _, _ => none
  | limit + 1, cs, taken =>
    let add (c : Option Char) : Option (List Char) := do some ((← c) :: (← taken))
    match cs with
    | [] => none
    | '"' :: rest => some (taken.map fun t => String.ofList t.reverse, rest)
    | '\\' :: 'u' :: rest => do
      let (n, rest) ← unit? rest
      let (c, rest) := unitChar n rest
      stringInto limit rest (add c)
    | '\\' :: c :: rest => do stringInto limit rest (add (some (← escape? c)))
    | c :: rest => if c.toNat < 32 || c = '\\' then none else stringInto limit rest (add (some c))

/-- A string after its opening quote. -/
def string? (cs : List Char) : Option (Option String × List Char) :=
  stringInto (cs.length + 1) cs (some [])

/-- At least one digit. -/
def digits? (cs : List Char) : Option (List Char × List Char) :=
  let ds := cs.takeWhile Char.isDigit
  if ds.isEmpty then none else some (ds, cs.dropWhile Char.isDigit)

/-- The digits in front of the point; a zero stands alone. -/
def leading? (cs : List Char) : Option (List Char × List Char) := do
  let (ds, rest) ← digits? cs
  if ds.length > 1 && ds.head? == some '0' then none else some (ds, rest)

/-- What follows after a point and its digits, and whether they were there. -/
def fraction? (cs : List Char) : Option (Bool × List Char) :=
  match cs with
  | '.' :: rest => (digits? rest).map fun (_, rest) => (true, rest)
  | _ => some (false, cs)

/-- What follows after an exponent, and whether it was there. -/
def exponent? (cs : List Char) : Option (Bool × List Char) :=
  match cs with
  | c :: rest =>
    if c = 'e' || c = 'E' then
      let unsigned := match rest with
        | '+' :: more => more
        | '-' :: more => more
        | _ => rest
      (digits? unsigned).map fun (_, rest) => (true, rest)
    else some (false, cs)
  | [] => some (false, cs)

/-- A number. -/
def number? (cs : List Char) : Option (Value × List Char) := do
  let (negative, cs) := match cs with
    | '-' :: rest => (true, rest)
    | _ => (false, cs)
  let (ds, rest) ← leading? cs
  let (fraction, rest) ← fraction? rest
  let (exponent, rest) ← exponent? rest
  let n : Int := digitsValue ds
  let whole := if fraction || exponent || (negative && n = 0) then none
    else some (if negative then -n else n)
  some (.number whole, rest)

/-- A word with a value of its own. -/
def word? (cs : List Char) : Option (Value × List Char) :=
  match cs with
  | 'n' :: 'u' :: 'l' :: 'l' :: rest => some (.null, rest)
  | 't' :: 'r' :: 'u' :: 'e' :: rest => some (.bool true, rest)
  | 'f' :: 'a' :: 'l' :: 's' :: 'e' :: rest => some (.bool false, rest)
  | _ => none

mutual

/-- A value; `limit` bounds the recursion, and the number of characters is enough. -/
def value? : (limit : Nat) → List Char → Option (Value × List Char)
  | 0, _ => none
  | limit + 1, cs =>
    match skip cs with
    | '\x7b' :: rest =>
      match skip rest with
      | '\x7d' :: rest => some (.object [], rest)
      | body => (fields? limit body []).map fun (fs, rest) => (.object fs, rest)
    | '[' :: rest =>
      match skip rest with
      | ']' :: rest => some (.array [], rest)
      | body => (items? limit body []).map fun (vs, rest) => (.array vs, rest)
    | '"' :: rest => (string? rest).map fun (s, rest) => (.string s, rest)
    | cs => word? cs <|> number? cs

/-- Fields up to the closing brace, onto `taken`, which is reversed. -/
def fields? : (limit : Nat) → List Char → (taken : List (Option String × Value)) →
    Option (List (Option String × Value) × List Char)
  | 0, _, _ => none
  | limit + 1, cs, taken =>
    match skip cs with
    | '"' :: rest => do
      let (name, rest) ← string? rest
      match skip rest with
      | ':' :: rest =>
        let (v, rest) ← value? limit rest
        let taken := (name, v) :: taken
        match skip rest with
        | ',' :: rest => fields? limit rest taken
        | '\x7d' :: rest => some (taken.reverse, rest)
        | _ => none
      | _ => none
    | _ => none

/-- Items up to the closing bracket, onto `taken`, which is reversed. -/
def items? : (limit : Nat) → List Char → (taken : List Value) → Option (List Value × List Char)
  | 0, _, _ => none
  | limit + 1, cs, taken => do
    let (v, rest) ← value? limit cs
    match skip rest with
    | ',' :: rest => items? limit rest (v :: taken)
    | ']' :: rest => some ((v :: taken).reverse, rest)
    | _ => none

end

/-- Reads a text that is one value. -/
def ofText? (s : String) : Option Value :=
  let cs := s.toList
  match value? (cs.length + 1) cs with
  | some (v, rest) => if (skip rest).isEmpty then some v else none
  | none => none

end VoxelEdit.Json
