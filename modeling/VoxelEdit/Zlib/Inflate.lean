import VoxelEdit.Zlib.Prefixed

/-!
# Inflating

A deflated text is a sequence of blocks, each stored or coded. A coded block holds literals and
copies of what was written before, under the fixed codes or under codes that stand at its
front.
-/

namespace VoxelEdit.Zlib

/-- The shortest copy and the extra bits of each length symbol, from 257 on. -/
def lengthTable : Array (Nat × Nat) :=
  #[(3, 0), (4, 0), (5, 0), (6, 0), (7, 0), (8, 0), (9, 0), (10, 0), (11, 1), (13, 1), (15, 1),
    (17, 1), (19, 2), (23, 2), (27, 2), (31, 2), (35, 3), (43, 3), (51, 3), (59, 3), (67, 4),
    (83, 4), (99, 4), (115, 4), (131, 5), (163, 5), (195, 5), (227, 5), (258, 0)]

/-- The shortest distance and the extra bits of each distance symbol. -/
def distanceTable : Array (Nat × Nat) :=
  #[(1, 0), (2, 0), (3, 0), (4, 0), (5, 1), (7, 1), (9, 2), (13, 2), (17, 3), (25, 3), (33, 4),
    (49, 4), (65, 5), (97, 5), (129, 6), (193, 6), (257, 7), (385, 7), (513, 8), (769, 8),
    (1025, 9), (1537, 9), (2049, 10), (3073, 10), (4097, 11), (6145, 11), (8193, 12),
    (12289, 12), (16385, 13), (24577, 13)]

/-- The order in which the lengths of the code for code lengths are written. -/
def lengthOrder : List Nat := [16, 17, 18, 0, 8, 7, 9, 6, 10, 5, 11, 4, 12, 3, 13, 2, 14, 1, 15]

/-- Word lengths of the fixed code for literals and copy lengths. -/
def fixedLiteralLengths : List Nat :=
  List.replicate 144 8 ++ List.replicate 112 9 ++ List.replicate 24 7 ++ List.replicate 8 8

/-- Repeats `n` times the byte that stands `distance` before the end. -/
def copy : (n : Nat) → (distance : Nat) → (out : ByteArray) → ByteArray
  | 0, _, out => out
  | n + 1, distance, out => copy n distance (out.push ((out.data[out.size - distance]?).getD 0))

/-- Literals and copies up to the end of a block; `limit` bounds the symbols. -/
def coded? (literals distances : Code) : (limit : Nat) → (s : Stream) → (out : ByteArray) →
    Option (Stream × ByteArray)
  | 0, _, _ => none
  | limit + 1, s, out => do
    let (symbol, s) ← literals.symbol? s
    if symbol < 256 then coded? literals distances limit s (out.push symbol.toUInt8)
    else if symbol = 256 then some (s, out)
    else
      let (base, extra) ← lengthTable[symbol - 257]?
      let (more, s) ← s.bits? extra
      let (far, s) ← distances.symbol? s
      let (nearest, extra) ← distanceTable[far]?
      let (further, s) ← s.bits? extra
      let distance := nearest + further
      if distance > out.size then none
      else coded? literals distances limit s (copy (base + more) distance out)

/-- A block of `n` bytes as they stand. -/
def stored? : (n : Nat) → (s : Stream) → (out : ByteArray) → Option (Stream × ByteArray)
  | 0, s, out => some (s, out)
  | n + 1, s, out => do
    let (b, s) ← s.bits? 8
    stored? n s (out.push b.toUInt8)

/-- Reads the word lengths of the code for code lengths, as pairs of a symbol and a length. -/
def orderedLengths? : List Nat → Stream → Option (List (Nat × Nat) × Stream)
  | [], s => some ([], s)
  | symbol :: symbols, s => do
    let (n, s) ← s.bits? 3
    let (rest, s) ← orderedLengths? symbols s
    some ((symbol, n) :: rest, s)

/-- Reads `wanted` word lengths under the code for code lengths, onto `taken`, which is
reversed; `limit` bounds the symbols. -/
def wordLengths? (code : Code) (wanted : Nat) : (limit : Nat) → (s : Stream) →
    (taken : List Nat) → Option (List Nat × Stream)
  | 0, _, _ => none
  | limit + 1, s, taken =>
    if taken.length = wanted then some (taken.reverse, s)
    else if taken.length > wanted then none
    else do
      let (symbol, s) ← code.symbol? s
      if symbol < 16 then wordLengths? code wanted limit s (symbol :: taken)
      else if symbol = 16 then
        let last ← taken.head?
        let (n, s) ← s.bits? 2
        wordLengths? code wanted limit s (List.replicate (n + 3) last ++ taken)
      else if symbol = 17 then
        let (n, s) ← s.bits? 3
        wordLengths? code wanted limit s (List.replicate (n + 3) 0 ++ taken)
      else
        let (n, s) ← s.bits? 7
        wordLengths? code wanted limit s (List.replicate (n + 11) 0 ++ taken)

/-- Reads the codes at the front of a block. -/
def codes? (s : Stream) : Option (Code × Code × Stream) := do
  let (a, s) ← s.bits? 5
  let (b, s) ← s.bits? 5
  let (c, s) ← s.bits? 4
  let literals := a + 257
  let distances := b + 1
  if literals > 286 || distances > 30 then none
  else
    let (pairs, s) ← orderedLengths? (lengthOrder.take (c + 4)) s
    let lengths := (List.range 19).map fun i => (pairs.lookup i).getD 0
    let code ← Code.ofLengths? false lengths
    let (all, s) ← wordLengths? code (literals + distances) (literals + distances + 1) s []
    let own := all.take literals
    if own.getD 256 0 = 0 then none
    else
      let literalCode ← Code.ofLengths? true own
      let distanceCode ← Code.ofLengths? true (all.drop literals)
      some (literalCode, distanceCode, s)

/-- Blocks up to the last one; `limit` bounds their number. -/
def blocks? : (limit : Nat) → (s : Stream) → (out : ByteArray) → Option (Stream × ByteArray)
  | 0, _, _ => none
  | limit + 1, s, out => do
    let (last, s) ← s.bits? 1
    let (kind, s) ← s.bits? 2
    let bound := 8 * s.data.size + 1
    let (s, out) ←
      if kind = 0 then do
        let (n, s) ← s.align.bits? 16
        let (check, s) ← s.bits? 16
        if n + check = 65535 then stored? n s out else none
      else if kind = 1 then do
        let literals ← Code.ofLengths? false fixedLiteralLengths
        let distances ← Code.ofLengths? false (List.replicate 32 5)
        coded? literals distances bound s out
      else if kind = 2 then do
        let (literals, distances, s) ← codes? s
        coded? literals distances bound s out
      else none
    if last = 1 then some (s, out) else blocks? limit s out

/-- Inflates the text at the front of a stream. -/
def inflate? (s : Stream) : Option (Stream × ByteArray) :=
  blocks? (8 * s.data.size + 1) s ByteArray.empty

end VoxelEdit.Zlib
