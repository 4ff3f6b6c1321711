/-!
# Canonical codes over a bit stream

Bits are taken from each byte lowest first. A canonical code is given by the length of each
symbol's word: words of one length are consecutive in the order of their symbols, and shorter
words come first. `Code.ofLengths?` refuses a set of lengths that leaves no room for its words,
and one that leaves words unused unless a single word of one bit is all there is.
-/

namespace VoxelEdit.Zlib

/-- A compressed text and the number of its bits already read. -/
structure Stream where
  data : ByteArray
  pos : Nat

namespace Stream

/-- The next bit. -/
def bit? (s : Stream) : Option (Nat × Stream) :=
  if h : s.pos / 8 < s.data.size then
    some ((s.data[s.pos / 8]).toNat >>> (s.pos % 8) % 2, { s with pos := s.pos + 1 })
  else none

/-- The next `n` bits as a number, the first one lowest. -/
def bits? : (n : Nat) → (s : Stream) → Option (Nat × Stream)
  | 0, s => some (0, s)
  | n + 1, s => do
    let (b, s) ← s.bit?
    let (rest, s) ← bits? n s
    some (b + 2 * rest, s)

/-- Skips to the next whole byte. -/
def align (s : Stream) : Stream := { s with pos := (s.pos + 7) / 8 * 8 }

end Stream

/-- A canonical code: how many words each length from 1 to 15 has, and the symbols in the order
of their words. -/
structure Code where
  counts : List Nat
  symbols : Array Nat

namespace Code

/-- The longest word. -/
def maxLength : Nat := 15

/-- The room left for words of 15 bits, or nothing when a length has too many words. -/
def room? : List Nat → (left : Nat) → Option Nat
  | [], left => some left
  | n :: counts, left => if n ≤ 2 * left then room? counts (2 * left - n) else none

/-- The code with the given word lengths; a symbol of length 0 has no word. -/
def ofLengths? (allowPartial : Bool) (lengths : List Nat) : Option Code := do
  let counts := (List.range maxLength).map fun i => lengths.count (i + 1)
  let left ← room? counts 1
  let longest := lengths.foldl max 0
  if left > 0 && longest > 0 && !(allowPartial && longest = 1) then none
  else
    let numbered := lengths.zipIdx
    let symbols := (List.range maxLength).flatMap fun i =>
      (numbered.filter fun (n, _) => n = i + 1).map Prod.snd
    some ⟨counts, symbols.toArray⟩

/-- Reads one word against the counts that remain: `code` is the word so far, `first` the first
word of its length and `index` the place of that word's symbol. -/
def walk? (symbols : Array Nat) : (counts : List Nat) → (code first index : Nat) → (s : Stream) →
    Option (Nat × Stream)
  | [], _, _, _, _ => none
  | n :: counts, code, first, index, s => do
    let (b, s) ← s.bit?
    let code := code + b
    if code < first + n then (symbols[index + (code - first)]?).map (·, s)
    else walk? symbols counts (2 * code) (2 * (first + n)) (index + n) s

/-- Reads one symbol. -/
def symbol? (c : Code) (s : Stream) : Option (Nat × Stream) := walk? c.symbols c.counts 0 0 0 s

end Code

end VoxelEdit.Zlib
