import VoxelEdit.Proofs.BracedText
import VoxelEdit.Proofs.ByteLexer

/-!
# Braces on bytes

Both scanners that look for the partner of a brace know strings (`SkipsStrings`): behind a backslash
they pass over a single byte, which may be the first of several of one character. What is left of that
character is passed over as well, since none of its bytes is a quote or a backslash.

* `braced_tracks`: a run of braces. No closing brace comes with none open.
* `parts_inBraces`: the compounds of a tree's text.
-/

namespace VoxelEdit.ByteLexer

open Text

variable {src front cs : List Char} {c : Char}

/-! ## Strings -/

/-- A string that is not closed yet has its quote still. -/
theorem closing_quote {q : Char} (hq : IsQuote q) :
    ∀ p, (if c = q then none else some q) = some p → IsQuote p := by
  intro p hp
  split at hp
  · exact nomatch hp
  · exact Option.some.inj hp ▸ hq

theorem eq_nil_of_ne_cons (h : ∀ d ds, cs = d :: ds → False) : cs = [] := by
  cases cs with
  | nil => rfl
  | cons d ds => exact (h d ds rfl).elim

/-- A scan of bytes that knows strings, and that passes over characters past the first 128. -/
structure SkipsStrings {α : Type} (scan : List UInt8 → Nat → Option Char → α) : Prop where
  outside : ∀ b rest pos, 128 ≤ (ofByte b).toNat → scan (b :: rest) pos none = scan rest (pos + 1) none
  inside : ∀ b rest pos q, scan (b :: rest) pos (some q) =
    if ofByte b = '\\' then scan (rest.drop 1) (pos + 1 + 1) (some q)
    else scan rest (pos + 1) (if ofByte b = q then none else some q)

namespace SkipsStrings

variable {α : Type} {scan : List UInt8 → Nat → Option Char → α} {pos : Nat} {q : Char}
  {mark : Option Char}

theorem byte (h : SkipsStrings scan) (hmark : ∀ q, mark = some q → IsQuote q) (b : UInt8)
    (rest : List UInt8) (pos : Nat) (hb : 128 ≤ (ofByte b).toNat) :
    scan (b :: rest) pos mark = scan rest (pos + 1) mark := by
  cases mark with
  | none => exact h.outside b rest pos hb
  | some q =>
    have hbackslash : ofByte b ≠ '\\' := ne_of_wide hb (by decide)
    have hq : ofByte b ≠ q := by
      rcases hmark q rfl with rfl | rfl <;> exact ne_of_wide hb (by decide)
    rw [h.inside, if_neg hbackslash, if_neg hq]

/-- A character past the first 128 is passed over. -/
theorem wide (h : SkipsStrings scan) (hmark : ∀ q, mark = some q → IsQuote q) (hc : 128 ≤ c.toNat) :
    scan (bytesOf (c :: cs)) pos mark = scan (bytesOf cs) (pos + c.utf8Size) mark :=
  pass_wide (fun bytes pos => scan bytes pos mark) (h.byte hmark) hc

/-- In a string a character is the end of it, or is passed over. -/
theorem plain (h : SkipsStrings scan) (hq : IsQuote q) (hc : c ≠ '\\') :
    scan (bytesOf (c :: cs)) pos (some q) =
      scan (bytesOf cs) (pos + c.utf8Size) (if c = q then none else some q) := by
  by_cases hnarrow : c.toNat < 128
  · obtain ⟨b, hb, hbyte⟩ := bytesOf_narrow hnarrow cs
    rw [hb, h.inside, hbyte, if_neg hc, utf8Size_narrow hnarrow]
  · have hwide : 128 ≤ c.toNat := Nat.le_of_not_lt hnarrow
    have hne : c ≠ q := by
      rcases hq with rfl | rfl <;> exact ne_of_wide hwide (by decide)
    rw [h.wide (fun _ heq => Option.some.inj heq ▸ hq) hwide, if_neg hne]

/-- A backslash passes over the whole character behind it. -/
theorem escaped (h : SkipsStrings scan) (hq : IsQuote q) (d : Char) :
    scan (bytesOf ('\\' :: d :: cs)) pos (some q) =
      scan (bytesOf cs) (pos + '\\'.utf8Size + d.utf8Size) (some q) := by
  obtain ⟨b, hb, hbyte⟩ := bytesOf_narrow (c := '\\') (by decide) (d :: cs)
  rw [hb, h.inside, if_pos hbyte]
  exact pass_tail (fun bytes pos => scan bytes pos (some q))
    (h.byte fun _ heq => Option.some.inj heq ▸ hq) d cs (pos + 1)

/-- At the end of a text it passes over nothing. -/
theorem escaped_end (h : SkipsStrings scan) :
    scan (bytesOf ['\\']) pos (some q) = scan [] (pos + 2) (some q) := by
  obtain ⟨b, hb, hbyte⟩ := bytesOf_narrow (c := '\\') (by decide) []
  rw [hb, h.inside, if_pos hbyte]
  rfl

end SkipsStrings

/-! ## One character further -/

theorem byteLength_push (front : List Char) (c : Char) :
    byteLength front + c.utf8Size = byteLength (front ++ [c]) := by
  simp

theorem src_push (h : src = front ++ c :: cs) : src = front ++ [c] ++ cs := by
  simp [h]

/-! ## A run of braces -/

section

variable {start offset braces lists : Nat}

theorem braced_skips (src : List Char) (start braces lists : Nat) :
    SkipsStrings fun bytes offset mark => braced src start bytes offset braces lists mark where
  outside b rest pos hb := by
    have hne (a : Char) (ha : a.toNat < 128) : ofByte b ≠ a := ne_of_wide hb ha
    rw [braced]
    simp [hne '"' (by decide), hne '\'' (by decide), hne '\x7b' (by decide), hne '[' (by decide),
      hne ']' (by decide), hne '\x7d' (by decide)]
  inside b rest pos q := by rw [braced]

/-- Outside of strings the bytes of a character do what the character does. -/
theorem braced_outside : braced src start (bytesOf (c :: cs)) offset braces lists none =
    if c = '"' || c = '\'' then
      braced src start (bytesOf cs) (offset + c.utf8Size) braces lists (some c)
    else if c = '\x7b' then
      if braces + 1 + lists > Token.maxNesting then .error (.refused (.badTree start .tooDeep))
      else braced src start (bytesOf cs) (offset + c.utf8Size) (braces + 1) lists none
    else if c = '[' then
      if braces + (lists + 1) > Token.maxNesting then .error (.refused (.badTree start .tooDeep))
      else braced src start (bytesOf cs) (offset + c.utf8Size) braces (lists + 1) none
    else if c = ']' then
      braced src start (bytesOf cs) (offset + c.utf8Size) braces (lists - 1) none
    else if c = '\x7d' then
      if braces = 0 then .error (.unopened offset)
      else if braces - 1 = 0 then (slice src start (offset + c.utf8Size)).map fun text =>
        (String.ofList text, ⟨bytesOf cs, offset + c.utf8Size⟩)
      else braced src start (bytesOf cs) (offset + c.utf8Size) (braces - 1) lists none
    else braced src start (bytesOf cs) (offset + c.utf8Size) braces lists none := by
  by_cases hc : c.toNat < 128
  · obtain ⟨b, hb, hbyte⟩ := bytesOf_narrow hc cs
    rw [hb, braced, hbyte, utf8Size_narrow hc]
  · have hwide : 128 ≤ c.toNat := Nat.le_of_not_lt hc
    have hne (a : Char) (ha : a.toNat < 128) : c ≠ a := ne_of_wide hwide ha
    rw [(braced_skips src start braces lists).wide IsQuote.of_none hwide]
    simp [hne '"' (by decide), hne '\'' (by decide), hne '\x7b' (by decide), hne '[' (by decide),
      hne ']' (by decide), hne '\x7d' (by decide)]

end

/-- What was taken so far stands before the place, behind `before`. -/
def Took (before taken front : List Char) : Prop := front = before ++ taken.reverse

theorem Took.push {before taken : List Char} (h : Took before taken front) (c : Char) :
    Took before (c :: taken) (front ++ [c]) := by
  unfold Took at h ⊢
  simp [h]

/-- **A run of braces on bytes.** At least one brace is open throughout, so none is closed that is
not. -/
theorem braced_tracks {before : List Char} {braces lists : Nat} {mark : Option Char} {taken : List Char}
    (hsrc : src = front ++ cs) (htaken : Took before taken front) (hbraces : 1 ≤ braces)
    (hmark : ∀ q, mark = some q → IsQuote q) :
    Tracks front cs (braced src (byteLength before) (bytesOf cs) (byteLength front) braces lists mark)
      (Token.braced (byteLength before) cs braces lists mark taken) := by
  generalize hstart : byteLength before = start
  -- the induction is on the scan of characters: the place moves on with it, `before` stays
  fun_induction Token.braced start cs braces lists mark taken generalizing front with
  | case1 =>
    rw [bytesOf_nil, braced]
    rfl
  | case2 d cs braces lists q taken ih =>
    rw [(braced_skips src start braces lists).escaped (hmark q rfl), byteLength_push, byteLength_push]
    exact ((ih (src_push (src_push hsrc)) ((htaken.push _).push d) hbraces hmark).append [d]).append ['\\']
  | case3 c cs braces lists q taken hescape ih =>
    by_cases hc : c = '\\'
    · -- a backslash at the end of the text
      subst hc
      obtain rfl : cs = [] := eq_nil_of_ne_cons fun d ds => hescape d ds rfl
      rw [(braced_skips src start braces lists).escaped_end, braced, Token.braced]
      rfl
    · rw [(braced_skips src start braces lists).plain (hmark q rfl) hc, byteLength_push]
      exact (ih (src_push hsrc) (htaken.push _) hbraces (closing_quote (hmark q rfl))).append [_]
  | case4 c cs braces lists taken hquote ih =>
    have hc : IsQuote c := by simpa [IsQuote] using hquote
    rw [braced_outside, if_pos hquote, byteLength_push]
    exact (ih (src_push hsrc) (htaken.push _) hbraces fun q hq => Option.some.inj hq ▸ hc).append [_]
  | case5 cs braces lists taken hdeep hquote =>
    -- both refuse a nesting that is too deep, naming where the run started
    rw [braced_outside, if_neg hquote, if_pos rfl, if_pos hdeep]
    rfl
  | case6 cs braces lists taken hdeep hquote ih =>
    rw [braced_outside, if_neg hquote, if_pos rfl, if_neg hdeep, byteLength_push]
    exact (ih (src_push hsrc) (htaken.push _) (Nat.le_add_left 1 braces) hmark).append [_]
  | case7 cs braces lists taken hdeep hquote hopen =>
    rw [braced_outside, if_neg hquote, if_neg hopen, if_pos rfl, if_pos hdeep]
    rfl
  | case8 cs braces lists taken hdeep hquote hopen ih =>
    rw [braced_outside, if_neg hquote, if_neg hopen, if_pos rfl, if_neg hdeep, byteLength_push]
    exact (ih (src_push hsrc) (htaken.push _) hbraces hmark).append [_]
  | case9 cs braces lists taken hquote hopen hlist ih =>
    rw [braced_outside, if_neg hquote, if_neg hopen, if_neg hlist, if_pos rfl, byteLength_push]
    exact (ih (src_push hsrc) (htaken.push _) hbraces hmark).append [_]
  | case10 cs braces lists taken hlast hquote hopen hlist hclose =>
    -- the last brace
    obtain rfl : braces = 1 := Nat.le_antisymm hlast hbraces
    have hfront : front ++ ['\x7d'] = before ++ ('\x7d' :: taken).reverse := htaken.push _
    have hsplit : src = before ++ ('\x7d' :: taken).reverse ++ cs := hfront ▸ src_push hsrc
    have htext : slice src start (byteLength (front ++ ['\x7d'])) = .ok ('\x7d' :: taken).reverse :=
      slice_of_eq before cs hsplit hstart.symm (hfront ▸ byteLength_append _ _)
    rw [braced_outside, if_neg hquote, if_neg hopen, if_neg hlist, if_neg hclose,
      if_pos rfl, if_neg (by decide), if_pos rfl, byteLength_push, htext]
    exact ⟨['\x7d'], rfl, by simp [between, Except.map]⟩
  | case11 cs braces lists taken hlast hquote hopen hlist hclose ih =>
    have hmore : 1 ≤ braces - 1 := by omega
    rw [braced_outside, if_neg hquote, if_neg hopen, if_neg hlist, if_neg hclose,
      if_pos rfl, if_neg (Nat.ne_of_gt hbraces), if_neg (Nat.ne_of_gt hmore), byteLength_push]
    exact (ih (src_push hsrc) (htaken.push _) hmore hmark).append [_]
  | case12 c cs braces lists taken hquote hopen hlist hlast hclose ih =>
    rw [braced_outside, if_neg hquote, if_neg hopen, if_neg hlist, if_neg hlast, if_neg hclose, byteLength_push]
    exact (ih (src_push hsrc) (htaken.push _) hbraces hmark).append [_]

/-! ## The compounds of a tree -/

section

variable {offset depth start : Nat} {mark : Option Char} {current : List Char}

theorem compounds_skips (src : List Char) (depth start : Nat) :
    SkipsStrings fun bytes offset mark => compounds src bytes offset depth start mark where
  outside b rest pos hb := by
    have hne (a : Char) (ha : a.toNat < 128) : ofByte b ≠ a := ne_of_wide hb ha
    rw [compounds]
    simp [hne '"' (by decide), hne '\'' (by decide), hne '\x7b' (by decide), hne '\x7d' (by decide)]
  inside b rest pos q := by rw [compounds]

theorem compounds_outside : compounds src (bytesOf (c :: cs)) offset depth start none =
    if c = '"' || c = '\'' then
      compounds src (bytesOf cs) (offset + c.utf8Size) depth start (some c)
    else if c = '\x7b' then
      compounds src (bytesOf cs) (offset + c.utf8Size) (depth + 1) (if depth = 0 then offset else start)
        none
    else if c = '\x7d' && depth > 0 then
      if depth - 1 = 0 then do
        let part ← slice src start (offset + c.utf8Size)
        let more ← compounds src (bytesOf cs) (offset + c.utf8Size) (depth - 1) start none
        return part :: more
      else compounds src (bytesOf cs) (offset + c.utf8Size) (depth - 1) start none
    else compounds src (bytesOf cs) (offset + c.utf8Size) depth start none := by
  by_cases hc : c.toNat < 128
  · obtain ⟨b, hb, hbyte⟩ := bytesOf_narrow hc cs
    rw [hb, compounds, hbyte, utf8Size_narrow hc]
  · have hwide : 128 ≤ c.toNat := Nat.le_of_not_lt hc
    have hne (a : Char) (ha : a.toNat < 128) : c ≠ a := ne_of_wide hwide ha
    rw [(compounds_skips src depth start).wide IsQuote.of_none hwide]
    simp [hne '"' (by decide), hne '\'' (by decide), hne '\x7b' (by decide), hne '\x7d' (by decide)]

/-- The compound that is open, if one is, started at `start`, and `current` is what was read of it. -/
def Opened (front : List Char) (depth start : Nat) (current : List Char) : Prop :=
  0 < depth → ∃ before, Took before current front ∧ byteLength before = start

theorem Opened.push (h : Opened front depth start current) (c : Char) :
    Opened (front ++ [c]) depth start (c :: current) := by
  intro hdepth
  obtain ⟨before, hbefore, hstart⟩ := h hdepth
  exact ⟨before, hbefore.push c, hstart⟩

/-- **The compounds on bytes.** Each is cut out from its first brace to its last. -/
theorem compounds_eq (hsrc : src = front ++ cs) (hmark : ∀ q, mark = some q → IsQuote q)
    (hopened : Opened front depth start current) :
    compounds src (bytesOf cs) (byteLength front) depth start mark =
      .ok (Descriptor.compounds cs depth mark current) := by
  -- a new `start` comes in where a compound is opened
  fun_induction Descriptor.compounds cs depth mark current generalizing front start with
  | case1 =>
    rw [bytesOf_nil, compounds]
  | case2 d cs depth q current ih =>
    rw [(compounds_skips src depth start).escaped (hmark q rfl), byteLength_push, byteLength_push]
    exact ih (src_push (src_push hsrc)) hmark ((hopened.push _).push d)
  | case3 c cs depth q current hescape ih =>
    by_cases hc : c = '\\'
    · subst hc
      obtain rfl : cs = [] := eq_nil_of_ne_cons fun d ds => hescape d ds rfl
      rw [(compounds_skips src depth start).escaped_end, compounds, Descriptor.compounds]
    · rw [(compounds_skips src depth start).plain (hmark q rfl) hc, byteLength_push]
      exact ih (src_push hsrc) (closing_quote (hmark q rfl)) (hopened.push c)
  | case4 c cs depth current hquote ih =>
    have hc : IsQuote c := by simpa [IsQuote] using hquote
    rw [compounds_outside, if_pos hquote, byteLength_push]
    exact ih (src_push hsrc) (fun q hq => Option.some.inj hq ▸ hc) (hopened.push c)
  | case5 cs depth current hquote ih =>
    rw [compounds_outside, if_neg hquote, if_pos rfl, byteLength_push]
    refine ih (src_push hsrc) hmark ?_
    intro _
    by_cases hdepth : depth = 0
    · -- a compound is opened
      rw [if_pos hdepth, if_pos hdepth]
      exact ⟨front, rfl, rfl⟩
    · rw [if_neg hdepth, if_neg hdepth]
      exact hopened.push _ (Nat.pos_of_ne_zero hdepth)
  | case6 c cs current hquote hopen hclose ih =>
    -- the last brace of a compound
    obtain ⟨before, rfl, rfl⟩ := hopened Nat.zero_lt_one
    have hpart : slice src (byteLength before) (byteLength (before ++ current.reverse ++ [c])) =
        .ok (c :: current).reverse :=
      slice_of_eq before cs (by simp [hsrc]) rfl (by simp)
    have hrest : compounds src (bytesOf cs) (byteLength (before ++ current.reverse ++ [c])) 0
        (byteLength before) none = .ok (Descriptor.compounds cs 0 none []) :=
      ih (src_push hsrc) hmark fun h => absurd h (Nat.lt_irrefl 0)
    rw [compounds_outside, if_neg hquote, if_neg hopen, if_pos hclose, if_pos rfl, byteLength_push, hpart,
      hrest]
    rfl
  | case7 c cs depth current hquote hopen hclose hone ih =>
    obtain ⟨-, hdepth⟩ : c = '\x7d' ∧ 0 < depth := by simpa using hclose
    have hmore : ¬ depth - 1 = 0 := by omega
    rw [compounds_outside, if_neg hquote, if_neg hopen, if_pos hclose, if_neg hmore, byteLength_push]
    exact ih (src_push hsrc) hmark fun _ => hopened.push c hdepth
  | case8 c cs depth current hquote hopen hclose ih =>
    rw [compounds_outside, if_neg hquote, if_neg hopen, if_neg hclose, byteLength_push]
    exact ih (src_push hsrc) hmark (hopened.push c)

/-- **The compounds of a tree's text** are cut out between characters. -/
theorem parts_inBraces (inner : List Char) :
    parts (inBraces inner) = .ok (Descriptor.parts (inBraces inner)) := by
  by_cases hdouble : ['\x7b', '\x7b'] <+: inBraces inner
  · obtain ⟨rest, hrest⟩ : ∃ rest, inBraces inner = '\x7b' :: '\x7b' :: (rest ++ ['\x7d']) := by
      cases inner with
      | nil => exact absurd hdouble (by decide)
      | cons c rest =>
        obtain rfl : '\x7b' = c := by simpa [inBraces] using hdouble
        exact ⟨rest, rfl⟩
    have hbody : slice (inBraces inner) 1 (byteLength (inBraces inner) - 1) = .ok ('\x7b' :: rest) := by
      refine slice_of_eq ['\x7b'] ['\x7d'] (by simp [hrest]) rfl ?_
      rw [hrest]
      simp [utf8Size_narrow]
      omega
    have hwhole : '\x7b' :: rest = [] ++ '\x7b' :: rest := rfl
    have hcompounds : compounds ('\x7b' :: rest) (bytesOf ('\x7b' :: rest)) 0 0 0 none =
        .ok (Descriptor.compounds ('\x7b' :: rest) 0 none []) :=
      compounds_eq hwhole IsQuote.of_none fun h => absurd h (Nat.lt_irrefl 0)
    have hparts : Descriptor.parts (inBraces inner) = Descriptor.compounds ('\x7b' :: rest) 0 none [] := by
      rw [hrest, Descriptor.parts, ← List.cons_append, List.dropLast_concat]
    rw [parts, if_pos hdouble, hbody, ok_bind, hcompounds, hparts]
  · have hparts : Descriptor.parts (inBraces inner) = [inBraces inner] := by
      unfold Descriptor.parts
      split
      · rename_i rest heq
        exact absurd ⟨rest, heq.symm⟩ hdouble
      · rfl
    rw [parts, if_neg hdouble, hparts]

end

end VoxelEdit.ByteLexer
