import VoxelEdit.Nbt.Tag
import VoxelEdit.Number.Decimal
import VoxelEdit.Text.Class

/-!
# Reading tag trees from text

A compound is written `\x7bname:value,...\x7d` with bare or quoted names. A value is a compound, a
list of values of one kind, a number array (`[B;..]`, `[I;..]`, `[L;..]`), quoted text, or a
bare word. A word that starts with a digit or a minus must be a number; its last letter may
name its kind. Whole numbers are read in 64 bits and cut to their kind.

Every function takes the characters to read and hands on those that follow what it read.
-/

namespace VoxelEdit.Nbt.Text

open Number VoxelEdit.Text

/-- Drops blanks in front. -/
def skip (cs : List Char) : List Char := cs.dropWhile isSpace

/-- Characters that end a bare word. -/
def isMark (c : Char) : Bool := "\x7b\x7d[],:;".toList.contains c

/-- Characters that a bare word must not hold. -/
def isForeign (c : Char) : Bool := c = '"' || c = '\'' || c = '\\'

/-- The character of a code point, unless it is a surrogate. -/
def char? (n : Nat) : Option Char :=
  if n.isValidChar then some (Char.ofNat n) else none

/-- Quoted text up to the closing `mark`, onto `taken`, which is reversed. -/
def quotedInto (mark : Char) : List Char → (taken : List Char) → Option (String × List Char)
  | [], _ => none
  | '\\' :: 'u' :: a :: b :: c :: d :: rest, taken => do
    let n := (((← hexDigit? a) * 16 + (← hexDigit? b)) * 16 + (← hexDigit? c)) * 16 + (← hexDigit? d)
    quotedInto mark rest ((← char? n) :: taken)
  | '\\' :: c :: rest, taken =>
    if c = '\\' || c = '"' || c = '\'' then quotedInto mark rest (c :: taken)
    else if c = 'n' then quotedInto mark rest ('\n' :: taken)
    else if c = 'r' then quotedInto mark rest ('\r' :: taken)
    else if c = 't' then quotedInto mark rest ('\t' :: taken)
    else none
  | c :: rest, taken =>
    if c = mark then some (String.ofList taken.reverse, rest)
    else if c = '\\' then none
    else quotedInto mark rest (c :: taken)

/-- A bare word without its trailing blanks, and what follows it. -/
def word? (cs : List Char) : Option (List Char × List Char) :=
  let raw := cs.takeWhile fun c => !isMark c
  let rest := cs.dropWhile fun c => !isMark c
  let kept := (raw.reverse.dropWhile isSpace).reverse
  if kept.isEmpty || kept.any isForeign then none else some (kept, rest)

/-- Whether a word has to be a number. -/
def isNumeric (w : List Char) : Bool :=
  match w with
  | c :: _ => c.isDigit || c = '-'
  | [] => false

/-- A 64-bit whole number. -/
def whole? (w : List Char) : Option Int := integer? minInt64 maxInt64 w

/-- The number that a word stands for. -/
def number? (w : List Char) : Option Tag :=
  let init := w.dropLast
  match w.getLast?.map Char.toLower with
  | some 'b' => (whole? init).map fun v => .byte (Int8.ofInt v)
  | some 's' => (whole? init).map fun v => .short (Int16.ofInt v)
  | some 'l' => (whole? init).map fun v => .long (Int64.ofInt v)
  | some 'f' => (Literal.parse? init).map fun l => .float (l.toBits single).toUInt32
  | some 'd' => (Literal.parse? init).map fun l => .double (l.toBits double).toUInt64
  | _ =>
    if w.contains '.' then (Literal.parse? w).map fun l => .double (l.toBits double).toUInt64
    else (whole? w).map Tag.ofInt

/-- The value of a bare word. -/
def scalar? (w : List Char) : Option Tag :=
  if isNumeric w then number? w else some (.string (String.ofList w))

/-- A field's name. -/
def name? (cs : List Char) : Option (String × List Char) :=
  match cs with
  | c :: rest =>
    if c = '"' || c = '\'' then quotedInto c rest []
    else do
      let (w, rest) ← word? cs
      if isNumeric w then none else some (String.ofList w, rest)
  | [] => none

/-- A whole-number word, whatever its kind. -/
def element? (w : List Char) : Option Int :=
  if isNumeric w then
    match number? w with
    | some (.byte v) => some v.toInt
    | some (.short v) => some v.toInt
    | some (.int v) => some v.toInt
    | some (.long v) => some v.toInt
    | _ => none
  else none

/-- Numbers up to the closing bracket, onto `taken`, which is reversed; `limit` bounds them. -/
def elements? : (limit : Nat) → List Char → (taken : List Int) → Option (List Int × List Char)
  | 0, _, _ => none
  | limit + 1, cs, taken => do
    let (w, rest) ← word? (skip cs)
    let v ← element? w
    match rest with
    | ',' :: rest => elements? limit rest (v :: taken)
    | ']' :: rest => some ((v :: taken).reverse, rest)
    | _ => none

/-- A number array after its letter and semicolon. -/
def array? (letter : List Char) (cs : List Char) : Option (Tag × List Char) := do
  let (vs, rest) ← match skip cs with
    | ']' :: rest => some ([], rest)
    | body => elements? body.length body []
  match letter with
  | ['B'] => some (.bytes (vs.map Int8.ofInt), rest)
  | ['I'] => some (.ints (vs.map Int32.ofInt), rest)
  | ['L'] => some (.longs (vs.map Int64.ofInt), rest)
  | _ => none

/-- The letter of a number array, if a word and a semicolon come next. -/
def arrayLetter? (cs : List Char) : Option (List Char × List Char) :=
  match word? cs with
  | some (w, ';' :: rest) => if isNumeric w then none else some (w, rest)
  | _ => none

mutual

/-- A value; `limit` bounds the recursion, and the number of characters is enough. -/
def value? : (limit : Nat) → List Char → Option (Tag × List Char)
  | 0, _ => none
  | limit + 1, cs =>
    match skip cs with
    | '\x7b' :: rest =>
      match skip rest with
      | '\x7d' :: rest => some (.compound [], rest)
      | body => (fields? limit body []).map fun (fs, rest) => (.compound fs, rest)
    | '[' :: rest =>
      match skip rest with
      | ']' :: rest => some (.list [], rest)
      | body =>
        match arrayLetter? body with
        | some (letter, rest) => array? letter rest
        | none => (items? limit body []).map fun (items, rest) => (.list items, rest)
    | c :: rest =>
      if c = '"' || c = '\'' then
        (quotedInto c rest []).map fun (s, rest) => (.string s, rest)
      else do
        let (w, rest) ← word? (c :: rest)
        some ((← scalar? w), rest)
    | [] => none

/-- Fields up to the closing brace. -/
def fields? : (limit : Nat) → List Char → (taken : Fields) → Option (Fields × List Char)
  | 0, _, _ => none
  | limit + 1, cs, taken => do
    let (name, rest) ← name? (skip cs)
    match skip rest with
    | ':' :: rest =>
      let (tag, rest) ← value? limit rest
      let taken := taken.set name tag
      match skip rest with
      | ',' :: rest => fields? limit rest taken
      | '\x7d' :: rest => some (taken, rest)
      | _ => none
    | _ => none

/-- Items of one kind up to the closing bracket, onto `taken`, which is reversed. -/
def items? : (limit : Nat) → List Char → (taken : List Tag) → Option (List Tag × List Char)
  | 0, _, _ => none
  | limit + 1, cs, taken => do
    let (tag, rest) ← value? limit cs
    match taken with
    | [] => pure ()
    | first :: _ => if first.id ≠ tag.id then none
    match skip rest with
    | ',' :: rest => items? limit rest (tag :: taken)
    | ']' :: rest => some ((tag :: taken).reverse, rest)
    | _ => none

end

/-- Reads a compound from the front of a text; what follows its closing brace is ignored. -/
def compound? (cs : List Char) : Option Fields :=
  match skip cs with
  | '\x7b' :: _ =>
    match value? (cs.length + 1) cs with
    | some (.compound fs, _) => some fs
    | _ => none
  | _ => none

end VoxelEdit.Nbt.Text
