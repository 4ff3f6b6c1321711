import VoxelEdit.Proofs.PatternReading
import VoxelEdit.Proofs.StoredRegion

/-!
# Written tilings are read back

* `listFrom_directive`: the tokens of a text that starts with a directive are the directive and the
  words behind it.
* `tiling_offset`: three whole numbers between commas are read as an offset.
* `parse_clipboard`, `parse_clipboardAt`: **the clipboard on its own is read as a tiling from the
  smallest corner**, moved back by the offset that is written, if any.
-/

namespace VoxelEdit.Pattern

open Number Text

/-! ## Printed offsets -/

/-- A whole number as it is printed. -/
def Decimal.ofInt (v : Int) : Decimal := ⟨decide (v < 0), .ofNat v.natAbs, none⟩

theorem Decimal.chars_ofInt (v : Int) : (Decimal.ofInt v).chars = (toString v).toList :=
  (chars_whole _ _).trans (toList_toString v).symm

theorem whole_ofInt {pos : Nat} {v : Int} (hv : Narrow v) :
    whole pos (String.ofList (Decimal.ofInt v).chars) = .ok v := by
  unfold whole
  rw [String.toList_ofList, Decimal.chars_ofInt, integer?_toString hv.1 hv.2]

section

variable (fin : Nat) {ts : List Spanned} {ws : List Word} {v : Int}

theorem offsetPart_number (hv : Narrow v) (h : Tokens ts (.number (.ofInt v) :: ws)) :
    ∃ rest, offsetPart fin ts = .ok (v, rest) ∧ Tokens rest ws := by
  obtain ⟨pos, rest, rfl, hrest⟩ := h.cons
  refine ⟨rest, ?_, hrest⟩
  show (whole pos (String.ofList (Decimal.ofInt v).chars) >>= fun v => Except.ok (v, rest)) = _
  rw [whole_ofInt hv]
  rfl

theorem offsetMore_number (hv : Narrow v) (h : Tokens ts (.comma :: .number (.ofInt v) :: ws)) :
    ∃ rest, offsetMore fin ts = .ok (v, rest) ∧ Tokens rest ws := by
  obtain ⟨pos, ts', rfl, hts⟩ := h.cons
  exact offsetPart_number fin hv hts

/-- The words of an offset. -/
def offsetWords (o : Pos) : List Word :=
  [.number (.ofInt o.x), .comma, .number (.ofInt o.y), .comma, .number (.ofInt o.z)]

theorem offsetWords_chain (o : Pos) : (offsetWords o).IsChain Word.Follows :=
  .cons_cons trivial (.cons_cons trivial (.cons_cons trivial (.cons_cons trivial (.singleton _))))

/-- **An offset is read**, with all of its numbers. -/
theorem tiling_offset {o : Pos} (ho : o.InWorld) (h : Tokens ts (offsetWords o)) :
    tiling fin ts = .ok ⟨false, o⟩ := by
  obtain ⟨ys, hx, hys⟩ := offsetPart_number fin ho.x h
  obtain ⟨zs, hy, hzs⟩ := offsetMore_number fin ho.y hys
  obtain ⟨rest, hz, hrest⟩ := offsetMore_number fin ho.z hzs
  obtain rfl : rest = [] := hrest.nil
  obtain ⟨pos, ts', rfl, -⟩ := h.cons
  have hoffset : offset fin (⟨pos, (Word.number (.ofInt o.x)).token⟩ :: ts') = .ok (o, []) := by
    unfold offset
    dsimp only [Word.token] at hx ⊢
    rw [hx]
    show (offsetMore fin ys >>= fun y => offsetMore fin y.2 >>= fun z =>
      Except.ok (Pos.mk o.x y.1 z.1, z.2)) = _
    rw [hy]
    show (offsetMore fin zs >>= fun z => Except.ok (Pos.mk o.x o.y z.1, z.2)) = _
    rw [hz]
    rfl
  show (offset fin (⟨pos, (Word.number (.ofInt o.x)).token⟩ :: ts') >>= _) = _
  rw [hoffset]
  rfl

end

/-! ## Directives -/

/-- **A name behind a hash is a directive**, and the words behind it follow. -/
theorem listFrom_directive {name rest : List Char} {ws : List Word} (hne : name ≠ [])
    (hname : name.all isWord = true) (hends : ∀ c ∈ rest.head?, isWord c = false)
    (hrest : Spaced isGap (ws.map Word.chars) rest) (hchain : ws.IsChain Word.Follows) :
    ∃ ts, Token.listFrom 0 ('#' :: (name ++ rest)) =
      .ok (⟨0, .directive (String.ofList name)⟩ :: ts) ∧ Tokens ts ws := by
  have hscan : Token.scan 0 '#' (name ++ rest) = .ok (.directive (String.ofList name), rest) := by
    obtain ⟨c, cs, rfl⟩ := List.exists_cons_of_ne_nil hne
    show Token.scanMarked 0 '#' (c :: cs ++ rest) = _
    unfold Token.scanMarked
    rw [takeWhile_run (List.all_eq_true.1 hname) hends, dropWhile_run (List.all_eq_true.1 hname) hends]
    rfl
  obtain ⟨next, hlist⟩ := listFrom_scan (by decide) hscan
  obtain ⟨ts, hts, htokens⟩ := listFrom_spaced hrest hchain next
  refine ⟨ts, ?_, htokens⟩
  rw [hlist, hts]
  rfl

/-- The name of the directive. -/
def clipboardName : List Char := ['c', 'l', 'i', 'p', 'b', 'o', 'a', 'r', 'd']

/-- A text of `#clipboard` and words behind it is the tiling that these are read as. -/
theorem parse_tiling {text : String} {rest : List Char} {ws : List Word} {t : Tiling}
    (htext : text.toList = '#' :: (clipboardName ++ rest))
    (hends : ∀ c ∈ rest.head?, isWord c = false) (hrest : Spaced isGap (ws.map Word.chars) rest)
    (hchain : ws.IsChain Word.Follows)
    (hread : ∀ fin ts, Tokens ts ws → tiling fin ts = .ok t) :
    parse text = .ok ⟨text, .clipboard t⟩ := by
  have hname : clipboardName.all isWord = true := rfl
  obtain ⟨ts, hlist, htokens⟩ := listFrom_directive (List.cons_ne_nil _ _) hname hends hrest hchain
  have htoken : Token.ofText text = .ok (⟨0, .directive "clipboard"⟩ :: ts) := by
    unfold Token.ofText
    rw [htext]
    exact hlist
  have hsource : sourceOf text.utf8ByteSize (⟨0, .directive "clipboard"⟩ :: ts) =
      .ok (.clipboard t) := by
    unfold sourceOf
    dsimp only
    rw [if_pos rfl, hread _ ts htokens]
    rfl
  unfold parse
  rw [htoken]
  show (sourceOf text.utf8ByteSize (⟨0, .directive "clipboard"⟩ :: ts) >>= fun s =>
    Except.ok (Pattern.mk text s)) = _
  rw [hsource]
  rfl

/-! ## The whole text -/

/-- The text of a tiling that is moved back by an offset. -/
def clipboardAt (o : Pos) : String :=
  "#clipboard " ++ toString o.x ++ "," ++ toString o.y ++ "," ++ toString o.z

/-- **The clipboard with an offset is read** as it is printed. -/
theorem parse_clipboardAt {o : Pos} (ho : o.InWorld) :
    parse (clipboardAt o) = .ok ⟨clipboardAt o, .clipboard ⟨false, o⟩⟩ := by
  have hchars (v : Int) : (Word.number (.ofInt v)).chars = (toString v).toList := Decimal.chars_ofInt v
  have htext : (clipboardAt o).toList =
      '#' :: (clipboardName ++ ' ' :: ((offsetWords o).map Word.chars).flatten) := by
    show ("#clipboard " ++ toString o.x ++ "," ++ toString o.y ++ "," ++ toString o.z).toList = _
    simp only [offsetWords, String.toList_append, List.map_cons, List.map_nil, List.flatten_cons,
      List.flatten_nil, hchars, List.append_assoc, List.append_nil]
    rfl
  have hspaced : Spaced isGap ((offsetWords o).map Word.chars)
      (' ' :: ((offsetWords o).map Word.chars).flatten) := .cons_blank (by decide) (.flatten _)
  refine parse_tiling htext ?_ hspaced (offsetWords_chain o) fun fin ts h => tiling_offset fin ho h
  rintro c ⟨⟩
  decide

/-- **The clipboard on its own is read** as a tiling without an offset. -/
theorem parse_clipboard : parse "#clipboard" = .ok ⟨"#clipboard", .clipboard ⟨false, .zero⟩⟩ := by
  have htext : "#clipboard".toList = '#' :: (clipboardName ++ []) := rfl
  have hspaced : Spaced isGap (List.map Word.chars []) [] := List.forall_mem_nil _
  refine parse_tiling htext ?_ hspaced .nil fun fin ts h => ?_
  · rintro c ⟨⟩
  · rw [h.nil]
    rfl

end VoxelEdit.Pattern
