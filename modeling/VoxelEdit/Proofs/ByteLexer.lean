import VoxelEdit.Pattern.Token
import VoxelEdit.Proofs.ByteOffsets
import VoxelEdit.Proofs.CutText
import VoxelEdit.Proofs.PatternGrammar

/-!
# Scanning tokens byte by byte

`Token` and `Descriptor` scan characters. A reader of UTF-8 has bytes to look at and offsets to cut at,
and can go wrong in ways that they cannot. Here tokens are scanned, and trees taken apart, in that way.

* `Stop`: the faults. A cut may be out of range or inside a character, a closing brace may come with
  none open, and a scan may go on for more rounds than it is given.
* `Tracks`: a scanner of bytes that gives what a scanner of characters gives, without a fault, and
  that stands behind the same characters then.
-/

namespace VoxelEdit

open Number Text

/-- Where a reader of bytes stands: the bytes to come, and the offset of the first of them. -/
structure Place where
  rest : List UInt8
  offset : Nat

namespace Place

/-- The place `n` bytes on, which may lie past the end. -/
def skip (p : Place) (n : Nat) : Place := ⟨p.rest.drop n, p.offset + n⟩

/-- The byte `n` places on, as a character. -/
def peek? (p : Place) (n : Nat) : Option Char := p.rest[n]?.map ofByte

/-- The place behind a run of bytes of a class. -/
def span (p : Place) (f : Char → Bool) : Place :=
  p.skip (p.rest.takeWhile fun b => f (ofByte b)).length

end Place

namespace ByteLexer

/-- Why a scan of bytes ends early: by one of three faults, or because the text is refused. A fault
carries the offsets at which it comes up. -/
inductive Stop where
  | slice (lo hi : Nat)
  | unopened (offset : Nat)
  | endless
  | refused (cause : PatternError)

/-- What is refused stays refused, and nothing else goes wrong. -/
def lift {α : Type} (x : Except PatternError α) : Except Stop α := x.mapError .refused

section

variable (src : List Char)

/-- The characters between two offsets; it is a fault if there are none such. -/
def slice (lo hi : Nat) : Except Stop (List Char) :=
  match slice? lo hi src with
  | some cs => .ok cs
  | none => .error (.slice lo hi)

/-- The text up to the closing quote, from the opening one. -/
def quoted (p : Place) : Except Stop (String × Place) := do
  let body := p.skip 1
  let stop := body.span fun c => c ≠ '\''
  if stop.rest.isEmpty then throw (.refused (.openQuote p.offset))
  let cs ← slice src body.offset stop.offset
  return (String.ofList cs, stop.skip 1)

/-- A run of braces that started at `start`. Behind a backslash in a string one byte is passed
over, whatever it is. -/
def braced (start : Nat) : (bytes : List UInt8) → (offset braces lists : Nat) →
    (mark : Option Char) → Except Stop (String × Place)
  | [], _, _, _, _ => .error (.refused (.openBrace start))
  | b :: bytes, offset, braces, lists, some q =>
    if ofByte b = '\\' then braced start (bytes.drop 1) (offset + 1 + 1) braces lists (some q)
    else braced start bytes (offset + 1) braces lists (if ofByte b = q then none else some q)
  | b :: bytes, offset, braces, lists, none =>
    if ofByte b = '"' || ofByte b = '\'' then
      braced start bytes (offset + 1) braces lists (some (ofByte b))
    else if ofByte b = '\x7b' then
      if braces + 1 + lists > Token.maxNesting then .error (.refused (.badTree start .tooDeep))
      else braced start bytes (offset + 1) (braces + 1) lists none
    else if ofByte b = '[' then
      if braces + (lists + 1) > Token.maxNesting then .error (.refused (.badTree start .tooDeep))
      else braced start bytes (offset + 1) braces (lists + 1) none
    else if ofByte b = ']' then braced start bytes (offset + 1) braces (lists - 1) none
    else if ofByte b = '\x7d' then
      if braces = 0 then .error (.unopened offset)
      else if braces - 1 = 0 then
        (slice src start (offset + 1)).map fun cs => (String.ofList cs, ⟨bytes, offset + 1⟩)
      else braced start bytes (offset + 1) (braces - 1) lists none
    else braced start bytes (offset + 1) braces lists none
termination_by bytes => bytes.length
decreasing_by all_goals (simp only [List.length_cons, List.length_drop]; omega)

/-- The number of bytes of a name. A colon belongs to it if a letter follows. -/
def nameLength : List UInt8 → Nat
  | [] => 0
  | b :: bytes =>
    let sep := ofByte b = ':' && ((bytes.head?.map ofByte).map Char.isAlpha).getD false
    if isWord (ofByte b) || sep then nameLength bytes + 1 else 0

/-- The states in a bracket. The closing bracket is looked for in the text from the opening one on. -/
def bracket (p : Place) : Except Stop (List (String × String) × Place) := do
  let tail ← slice src p.offset (byteLength src)
  match cut? ']' tail with
  | none => throw (.refused (.openStates p.offset))
  | some (front, _) =>
    let close := p.offset + byteLength front
    let body ← slice src (p.offset + 1) close
    let states ← lift (Token.states p.offset body)
    return (states, p.skip (close + 1 - p.offset))

/-- A name, with its states if a bracket follows. -/
def name (p : Place) : Except Stop (Token × Place) := do
  let stop := p.skip (nameLength p.rest)
  let text ← slice src p.offset stop.offset
  if stop.peek? 0 = some '[' then
    (bracket src stop).map fun (states, q) => (.name (String.ofList text) states, q)
  else return (.name (String.ofList text) [], stop)

/-- A word behind the mark `c`. -/
def marked (p : Place) (c : Char) : Except Stop (Token × Place) := do
  let body := p.skip 1
  let stop := body.span isWord
  let word ← slice src body.offset stop.offset
  if word.isEmpty then throw (.refused (.foreignCharacter p.offset c))
  return (if c = '#' then .directive (String.ofList word) else .flag (String.ofList word), stop)

/-- A number. Its digits are cut out twice, without and with what it starts with. -/
def number (p : Place) : Except Stop (Token × Place) := do
  let body := p.skip 1
  let stop := body.span isDigitOrPoint
  let _ ← slice src body.offset stop.offset
  let text ← slice src p.offset stop.offset
  if text = ['-'] then throw (.refused (.badNumber p.offset "-"))
  return (.number (String.ofList text), stop)

/-- The token that starts with the byte `c`. -/
def scan (p : Place) (c : Char) : Except Stop (Token × Place) :=
  if c = '%' then .ok (.percent, p.skip 1)
  else if c = ':' then .ok (.colon, p.skip 1)
  else if c = ',' then .ok (.comma, p.skip 1)
  else if c = '\'' then (quoted src p).map fun (s, q) => (.quoted s, q)
  else if c = '\x7b' then
    (braced src p.offset p.rest p.offset 0 0 none).map fun (s, q) => (.tree s, q)
  else if c = '#' || c = '@' then marked src p c
  else if c = '-' || c.isDigit then number src p
  else if c = 'r' && p.peek? 1 = some 't' && p.peek? 2 = some '\'' then
    (quoted src (p.skip 2)).map fun (s, q) => (.runtimeQuoted s, q)
  else if c.isAlpha || c = '_' then name src p
  else do
    let tail ← slice src p.offset (byteLength src)
    throw (.refused (.foreignCharacter p.offset (tail.head?.getD '?')))

/-- The tokens from a place on, in so many rounds at most. -/
def tokens : (rounds : Nat) → Place → Except Stop (List Spanned)
  | 0, _ => .error .endless
  | rounds + 1, p =>
    match p.rest with
    | [] => .ok []
    | b :: _ =>
      if Pattern.isGap (ofByte b) then tokens rounds (p.skip 1)
      else do
        let (token, q) ← scan src p (ofByte b)
        let more ← tokens rounds q
        return ⟨p.offset, token⟩ :: more

/-- The compounds that stand side by side in a text. `start` is where the one that is open
started. -/
def compounds : (bytes : List UInt8) → (offset depth start : Nat) → (mark : Option Char) →
    Except Stop (List (List Char))
  | [], _, _, _, _ => .ok []
  | b :: bytes, offset, depth, start, some q =>
    if ofByte b = '\\' then compounds (bytes.drop 1) (offset + 1 + 1) depth start (some q)
    else compounds bytes (offset + 1) depth start (if ofByte b = q then none else some q)
  | b :: bytes, offset, depth, start, none =>
    if ofByte b = '"' || ofByte b = '\'' then
      compounds bytes (offset + 1) depth start (some (ofByte b))
    else if ofByte b = '\x7b' then
      compounds bytes (offset + 1) (depth + 1) (if depth = 0 then offset else start) none
    else if ofByte b = '\x7d' && depth > 0 then
      if depth - 1 = 0 then do
        let part ← slice src start (offset + 1)
        let more ← compounds bytes (offset + 1) (depth - 1) start none
        return part :: more
      else compounds bytes (offset + 1) (depth - 1) start none
    else compounds bytes (offset + 1) depth start none
termination_by bytes => bytes.length
decreasing_by all_goals (simp only [List.length_cons, List.length_drop]; omega)

/-- The compounds of a tree's text. Doubled braces are cut off by their offsets. -/
def parts : Except Stop (List (List Char)) :=
  if ['\x7b', '\x7b'] <+: src then do
    let body ← slice src 1 (byteLength src - 1)
    compounds body (bytesOf body) 0 0 0 none
  else .ok [src]

end

/-! ## Places between characters -/

/-- The place between two parts of a text. -/
def between (front back : List Char) : Place := ⟨bytesOf back, byteLength front⟩

/-- A scan of bytes that does what a scan of the characters `cs` does: it refuses for the same
cause, or gives the same and stands behind the same characters. -/
def Tracks {α : Type} (front cs : List Char) (x : Except Stop (α × Place))
    (y : Except PatternError (α × List Char)) : Prop :=
  match y with
  | .error cause => x = .error (.refused cause)
  | .ok (a, tail) => ∃ used, cs = used ++ tail ∧ x = .ok (a, between (front ++ used) tail)

section

variable {α β : Type} {src front middle back cs : List Char} {f : Char → Bool}

theorem ok_bind {a : α} {f : α → Except Stop β} : (Except.ok a >>= f) = f a := rfl

/-- A slice between two parts of a text. -/
theorem slice_of_eq {lo hi : Nat} (front back : List Char) (hsrc : src = front ++ middle ++ back)
    (hlo : lo = byteLength front) (hhi : hi = byteLength front + byteLength middle) :
    slice src lo hi = .ok middle := by
  have h : slice? lo hi src = some middle :=
    slice?_eq_some_iff.2 ⟨front, back, hsrc, hlo.symm, hhi.symm⟩
  rw [slice, h]

@[simp] theorem offset_between : (between front back).offset = byteLength front := rfl

theorem skip_between (front middle back : List Char) :
    (between front (middle ++ back)).skip (byteLength middle) = between (front ++ middle) back := by
  simp [between, Place.skip, ← length_bytesOf]

theorem skip_one {c : Char} (hc : c.toNat < 128) :
    (between front (c :: back)).skip 1 = between (front ++ [c]) back := by
  have h := skip_between front [c] back
  rwa [byteLength_cons, utf8Size_narrow hc] at h

theorem span_between (hf : Coarse f) (cs : List Char) : (between front cs).span f =
    between (front ++ cs.takeWhile f) (cs.dropWhile f) := by
  have h := skip_between front (cs.takeWhile f) (cs.dropWhile f)
  rw [List.takeWhile_append_dropWhile] at h
  rw [Place.span, between, takeWhile_bytesOf hf, length_bytesOf]
  exact h

/-- A span takes a run of a class, up to something that is not in it. -/
theorem span_run (hf : Coarse f) (hrun : ∀ c ∈ middle, f c = true)
    (hback : ∀ c ∈ back.head?, f c = false) :
    (between front (middle ++ back)).span f = between (front ++ middle) back := by
  rw [span_between hf, takeWhile_run hrun hback, dropWhile_run hrun hback]

theorem isEmpty_between : (between front cs).rest.isEmpty = cs.isEmpty := by
  cases cs with
  | nil => rfl
  | cons c cs =>
    obtain ⟨b, rest, hb, -⟩ := first_byte c cs
    rw [between, hb]
    rfl

/-- One of the first 128 characters comes next exactly if its byte does. -/
theorem peek?_between {a : Char} (ha : a.toNat < 128) :
    (between front cs).peek? 0 = some a ↔ cs.head? = some a := by
  cases cs with
  | nil => simp [between, Place.peek?]
  | cons c cs =>
    obtain ⟨b, rest, hb, ⟨hc, -, -⟩ | ⟨hwide, hc⟩⟩ := first_byte c cs
    · simp [between, Place.peek?, hb, hc]
    · have hne : ofByte b ≠ a := ne_of_wide hwide ha
      have hne' : c ≠ a := ne_of_wide hc ha
      simp [between, Place.peek?, hb, hne, hne']

theorem peek?_succ {c : Char} (hc : c.toNat < 128) (n : Nat) :
    (between front (c :: cs)).peek? (n + 1) = (between (front ++ [c]) cs).peek? n := by
  rw [← skip_one hc]
  simp [Place.peek?, Place.skip]

theorem Tracks.map {x : Except Stop (α × Place)} {y : Except PatternError (α × List Char)}
    (h : Tracks front cs x y) (g : α → β) :
    Tracks front cs (x.map fun (a, p) => (g a, p)) (y.map fun (a, tail) => (g a, tail)) := by
  cases y with
  | error cause =>
    obtain rfl : x = .error (.refused cause) := h
    rfl
  | ok r =>
    obtain ⟨used, hused, rfl⟩ := h
    exact ⟨used, hused, rfl⟩

/-- A scan that goes on behind some characters. -/
theorem Tracks.append {x : Except Stop (α × Place)} {y : Except PatternError (α × List Char)}
    (middle : List Char) (h : Tracks (front ++ middle) cs x y) : Tracks front (middle ++ cs) x y := by
  cases y with
  | error cause => exact h
  | ok r =>
    obtain ⟨used, rfl, hx⟩ := h
    rw [List.append_assoc] at hx
    exact ⟨middle ++ used, (List.append_assoc _ _ _).symm, hx⟩

end

end ByteLexer

end VoxelEdit
