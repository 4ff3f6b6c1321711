import VoxelEdit.Proofs.BinaryTags
import VoxelEdit.Proofs.ClipboardCells

/-!
# What a stored clipboard becomes

The checks that a decoded clipboard has to pass, and what it becomes if it does
(`ofStored?_eq_ok_iff`): the size is proper and 64 bits count its positions, there are as many cells,
each cell has its entry, and every tag tree can be read. The program stops there if the size asks for
more cells than 64 bits count (`ofStored?_eq_none_iff`).
-/

namespace VoxelEdit

open Text

/-- A list of answers, one for each item. -/
theorem mapM_eq_ok_iff {ε α β : Type} {f : α → Except ε β} {as : List α} {bs : List β} :
    as.mapM f = .ok bs ↔ List.Forall₂ (fun a b => f a = .ok b) as bs := by
  induction as generalizing bs with
  | nil =>
    rw [List.mapM_nil, List.forall₂_nil_left_iff]
    exact ⟨fun h => (Except.ok.inj h).symm, fun h => by rw [h]; rfl⟩
  | cons a as ih =>
    rw [List.mapM_cons, List.forall₂_cons_left_iff]
    cases ha : f a with
    | error e => exact ⟨fun h => (nomatch h), fun ⟨_, _, h, _⟩ => (nomatch h)⟩
    | ok b =>
      cases has : as.mapM f with
      | error e =>
        have hnone (bs : List β) : ¬List.Forall₂ (fun a b => f a = .ok b) as bs := by
          rw [← ih, has]
          exact fun h => nomatch h
        exact ⟨fun h => (nomatch h), fun ⟨_, bs, _, h, _⟩ => absurd h (hnone bs)⟩
      | ok rest =>
        constructor
        · intro h
          exact ⟨b, rest, rfl, ih.1 has, (Except.ok.inj h).symm⟩
        · rintro ⟨b', rest', hb, hrest, rfl⟩
          obtain rfl := Except.ok.inj hb
          obtain rfl := Except.ok.inj (has.symm.trans (ih.2 hrest))
          rfl

namespace Clipboard

variable {c : Clipboard} {s : Stored}

/-- The search for a cell without an entry finds none just if each cell has one. -/
theorem find?_eq_none_iff {cells : List (Option Nat)} {n : Nat} :
    cells.find? (fun cell => cell.any (· ≥ n)) = none ↔ ∀ id, some id ∈ cells → id < n := by
  rw [List.find?_eq_none]
  constructor
  · intro h id hid
    have hany := h (some id) hid
    simpa using hany
  · intro h cell hcell
    cases cell with
    | none => simp
    | some id =>
      have hlt := h id hcell
      simpa using hlt

/-! ## The checks -/

theorem cellsFor?_eq_some_iff {size : Pos} (h : size.Proper) {n : Nat} :
    cellsFor? size = some n ↔ (n : Int) = size.cellCount ∧ size.cellCount ≤ Number.maxWord64 := by
  have hpos := h.cellCount_pos
  unfold cellsFor?
  simp only [Option.ite_none_right_eq_some, Option.some.injEq, Pos.cellCount] at hpos ⊢
  omega

theorem cellsFor?_eq_none_iff (size : Pos) :
    cellsFor? size = none ↔ (Number.maxWord64 : Int) < size.cellCount := by
  unfold cellsFor?
  simp only [Pos.cellCount, ite_eq_right_iff, reduceCtorEq, imp_false]
  omega

theorem badSize_iff (size : Pos) :
    (decide (size.x < 1) || decide (size.y < 1) || decide (size.z < 1)) = true ↔ ¬ size.Proper := by
  simp only [Bool.or_eq_true, decide_eq_true_eq, Pos.Proper, not_and_or, not_le, or_assoc]

/-- A size that is not proper is refused, and from a proper one the cells are counted. -/
theorem ofStored?_eq (s : Stored) : ofStored? s = if s.size.Proper then
    (cellsFor? s.size).map fun count =>
      if s.cells.length = count then ofCells? s else .error (.cellCount s.cells.length s.size)
    else some (.error (.badSize s.size)) := by
  unfold ofStored?
  by_cases hproper : s.size.Proper
  · rw [if_neg (by rwa [badSize_iff, not_not]), if_pos hproper]
  · rw [if_pos ((badSize_iff s.size).2 hproper), if_neg hproper]

theorem ofCells?_eq_ok_iff : ofCells? s = .ok c ↔
    (∀ id, some id ∈ s.cells → id < s.palette.length) ∧
      ∃ palette, s.palette.mapM expand = .ok palette ∧
        c = ofParts s.size palette.toArray s.cells.toArray s.player s.relative := by
  rw [← find?_eq_none_iff]
  unfold ofCells?
  split
  · rename_i id hfound
    exact ⟨fun h => (nomatch h), fun h => absurd (hfound.symm.trans h.1) (by simp)⟩
  rename_i hnone
  -- what the search finds is a number
  have hfind : s.cells.find? (fun cell => cell.any (· ≥ s.palette.length)) = none := by
    cases hfound : s.cells.find? (fun cell => cell.any (· ≥ s.palette.length)) with
    | none => rfl
    | some cell =>
      have hany := List.find?_some hfound
      cases cell with
      | none => exact absurd hany (by simp)
      | some id => exact absurd hfound (hnone id)
  cases hpalette : s.palette.mapM expand with
  | error cause =>
    constructor
    · exact fun h => nomatch h
    · rintro ⟨-, palette, h, -⟩
      exact nomatch h
  | ok palette =>
    constructor
    · intro h
      exact ⟨hfind, palette, rfl, (Except.ok.inj h).symm⟩
    · rintro ⟨-, palette', h, rfl⟩
      rw [Except.ok.inj h]

/-- **What passes the checks, and what it becomes.** -/
theorem ofStored?_eq_ok_iff : ofStored? s = some (.ok c) ↔
    s.size.Proper ∧ ((s.cells.length : Int) = s.size.cellCount ∧
        s.size.cellCount ≤ Number.maxWord64) ∧
      (∀ id, some id ∈ s.cells → id < s.palette.length) ∧
      ∃ palette, s.palette.mapM expand = .ok palette ∧
        c = ofParts s.size palette.toArray s.cells.toArray s.player s.relative := by
  rw [ofStored?_eq, ← ofCells?_eq_ok_iff]
  by_cases hproper : s.size.Proper
  · rw [if_pos hproper, ← cellsFor?_eq_some_iff hproper, Option.map_eq_some_iff]
    constructor
    · rintro ⟨count, hcount, h⟩
      split at h
      · rename_i heq
        exact ⟨hproper, heq ▸ hcount, h⟩
      · exact nomatch h
    · rintro ⟨-, hcount, h⟩
      exact ⟨_, hcount, by rw [if_pos rfl, h]⟩
  · rw [if_neg hproper]
    exact ⟨fun h => (nomatch h), fun h => absurd h.1 hproper⟩

/-- **What the program stops at.** -/
theorem ofStored?_eq_none_iff : ofStored? s = none ↔
    s.size.Proper ∧ (Number.maxWord64 : Int) < s.size.cellCount := by
  rw [ofStored?_eq, ← cellsFor?_eq_none_iff]
  by_cases hproper : s.size.Proper
  · rw [if_pos hproper, Option.map_eq_none_iff, and_iff_right hproper]
  · rw [if_neg hproper]
    exact ⟨fun h => (nomatch h), fun h => absurd h.1 hproper⟩

/-! ## Reading -/

/-- What stands before everything else. -/
def header : List UInt8 := magic ++ littleEndian 4 version

/-- After the header, what is read decides. -/
theorem decode?_header (rest : List UInt8) :
    decode? (header ++ rest) = match readStored rest with
      | none => some (.error .undecodable)
      | some (s, _) => ofStored? s := by
  have hlength : ¬(header ++ rest).length < 8 := by
    rw [List.length_append, show header.length = 8 from rfl]
    omega
  have hdrop : (header ++ rest).drop 8 = rest := rfl
  unfold decode?
  simp only [if_neg hlength, hdrop]
  rfl

/-- Bytes that begin with the letters and the version begin with the header. -/
theorem eq_header_append {bs : List UInt8} (hlength : 8 ≤ bs.length) (hmagic : bs.take 4 = magic)
    (hversion : ofLittleEndian ((bs.drop 4).take 4) = version) : bs = header ++ bs.drop 8 := by
  have hfour : ((bs.drop 4).take 4).length = 4 := by
    rw [List.length_take, List.length_drop]
    omega
  have hword := littleEndian_ofLittleEndian ((bs.drop 4).take 4)
  rw [hfour, hversion] at hword
  have hdrop : bs.drop 8 = (bs.drop 4).drop 4 := by rw [List.drop_drop]
  rw [header, ← hmagic, hword, hdrop, List.append_assoc, List.take_append_drop,
    List.take_append_drop]

/-- What is not refused at once has the header, and what is read after it is checked. -/
theorem decode?_cases (bs : List UInt8) : (∃ e, decode? bs = some (.error e)) ∨
    ∃ tail s rest, bs = header ++ tail ∧ readStored tail = some (s, rest) ∧
      decode? bs = ofStored? s := by
  unfold decode?
  -- the checks in their order: the length, the letters, the version
  split
  · exact .inl ⟨_, rfl⟩
  rename_i hlength
  split
  · exact .inl ⟨_, rfl⟩
  rename_i hmagic
  dsimp only
  split
  · exact .inl ⟨_, rfl⟩
  rename_i hversion
  split
  · exact .inl ⟨_, rfl⟩
  · rename_i s rest hread
    exact .inr ⟨_, s, rest,
      eq_header_append (not_lt.1 hlength) (not_not.1 hmagic) (not_not.1 hversion), hread, rfl⟩

/-- **The program stops** just if the size that is read has more positions than 64 bits count. -/
theorem decode?_eq_none_iff (bs : List UInt8) : decode? bs = none ↔
    ∃ tail s rest, bs = header ++ tail ∧ readStored tail = some (s, rest) ∧
      s.size.Proper ∧ (Number.maxWord64 : Int) < s.size.cellCount := by
  constructor
  · intro h
    obtain ⟨e, he⟩ | ⟨tail, s, rest, hbs, hread, hs⟩ := decode?_cases bs
    · exact nomatch h.symm.trans he
    · exact ⟨tail, s, rest, hbs, hread, ofStored?_eq_none_iff.1 (hs.symm.trans h)⟩
  · rintro ⟨tail, s, rest, rfl, hread, hlarge⟩
    rw [decode?_header, hread]
    exact ofStored?_eq_none_iff.2 hlarge

/-- A clipboard that is read is one that the checks let pass. -/
theorem decode?_eq_ofParts {bs : List UInt8} (h : decode? bs = some (.ok c)) :
    c.size.Proper ∧ (c.cells.size : Int) = c.size.cellCount ∧
      (∀ id, some id ∈ c.cells → id < c.palette.size) ∧
      c.index = .ofPalette c.palette ∧ c.used = true := by
  obtain ⟨e, he⟩ | ⟨-, s, -, -, -, hs⟩ := decode?_cases bs
  · exact absurd (h.symm.trans he) (by simp)
  obtain ⟨hproper, ⟨hcount, -⟩, hbelow, palette, hpalette, rfl⟩ :=
    ofStored?_eq_ok_iff.1 (hs.symm.trans h)
  have hlength : palette.length = s.palette.length :=
    (mapM_eq_ok_iff.1 hpalette).length_eq.symm
  refine ⟨hproper, hcount, ?_, rfl, rfl⟩
  intro id hid
  have hlt := hbelow id (List.mem_toArray.1 hid)
  show id < palette.toArray.size
  rw [List.size_toArray, hlength]
  exact hlt

end Clipboard

end VoxelEdit
