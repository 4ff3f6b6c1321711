import VoxelEdit.Proofs.SnapshotRoundTrip

/-!
# A clipboard is a map

A clipboard shares entries among its cells, rewrites them when it is turned, and finds them through
an index. What it means is simpler: a ledger of what was stored where. Turns and mirrors carry each
item of the ledger along, its position and its blocks alike.

* `Ledger`: the positions that something was stored at, with the entries, the last first.
* `Follows`: a clipboard and the ledger of all that was done with it, from an empty or a captured
  clipboard on, by any sequence of operations.
* `Agrees`: what one operation keeps (`Agrees.store`, `Agrees.step`, `Agrees.reload`), and thus any
  sequence of them (`Follows.agrees`).
* `clipboard_faithful`: **a clipboard shows what its ledger tells**, and its list, its cells and its
  index are right.
-/

namespace VoxelEdit

instance (p size : Pos) : Decidable (p.Inside size) := inferInstanceAs (Decidable (_ ∧ _))

namespace Clipboard

/-! ## Ledgers -/

/-- What was stored in a buffer of a size: positions and entries, the last first. -/
structure Ledger where
  size : Pos
  stored : List (Pos × Entry)

namespace Ledger

/-- Nothing stored. -/
def blank (size : Pos) : Ledger := ⟨size, []⟩

/-- An entry stored at a position; outside of the buffer nothing is stored. -/
def store (l : Ledger) (p : Pos) (e : Entry) : Ledger :=
  if p.Inside l.size then { l with stored := (p, e) :: l.stored } else l

/-- All that stands at the positions of a region, stored at the distances from its corner. -/
def ofRegion {R : Type} [Radius R] (r : Region R) (w : World) : Ledger :=
  r.positions.foldl (fun l p => l.store (p - r.box.min) (w.get ⟨r.dim, p⟩))
    (blank (r.box.dims.sup (.splat 1)))

/-- Each item carried to its new position, with its blocks turned or mirrored. -/
def step (l : Ledger) (s : Step) : Ledger where
  size := s.resize l.size
  stored := l.stored.map fun (p, e) => (s.place l.size p, mapBlocks (fun b => s.block b) e)

/-- What was stored last at a position. -/
def get? (l : Ledger) (p : Pos) : Option Entry := l.stored.lookup p

variable {l : Ledger}

theorem size_store (l : Ledger) (p : Pos) (e : Entry) : (l.store p e).size = l.size := by
  unfold store
  split <;> rfl

theorem get?_store (l : Ledger) (p : Pos) (e : Entry) (q : Pos) :
    (l.store p e).get? q = if q = p ∧ p.Inside l.size then some e else l.get? q := by
  unfold store get?
  by_cases hp : p.Inside l.size
  · rw [if_pos hp, List.lookup_cons]
    by_cases hq : q = p
    · rw [if_pos ⟨hq, hp⟩, hq, beq_self_eq_true]
    · rw [if_neg fun h => hq h.1, beq_false_of_ne hq]
  · rw [if_neg hp, if_neg fun h => hp h.2]

/-- What was stored at a position is found where a step places it. -/
theorem get?_step (l : Ledger) (s : Step) (p : Pos) :
    (l.step s).get? (s.place l.size p) = (l.get? p).map (mapBlocks fun b => s.block b) := by
  have hl := s.layout l.size
  have hinj {p q : Pos} (h : s.place l.size p = s.place l.size q) : p = q := by
    rw [← hl.source_place p, h, hl.source_place]
  unfold step get?
  induction l.stored with
  | nil => rfl
  | cons x stored ih =>
    obtain ⟨q, e⟩ := x
    rw [List.map_cons, List.lookup_cons, List.lookup_cons]
    by_cases hq : p = q
    · subst hq
      rw [beq_self_eq_true, beq_self_eq_true]
      rfl
    · have hplace : s.place l.size p ≠ s.place l.size q := fun h => hq (hinj h)
      rw [beq_false_of_ne hq, beq_false_of_ne hplace]
      exact ih

end Ledger

/-- A clipboard and the ledger of what was done with it. An entry outside of the buffer and an angle
that is no quarter turn are refused. What is saved and read again has tag trees that survive. -/
inductive Follows : Clipboard → Ledger → Prop
  | new (size : Pos) : Follows (new size) (.blank (size.sup (.splat 1)))
  | capture {R : Type} [Radius R] (r : Region R) (w : World) (player : Pos) :
      Follows (capture r w player) (.ofRegion r w)
  | store {c : Clipboard} {l : Ledger} (p : Pos) (e : Entry) :
      Follows c l → Follows (c.store p e) (l.store p e)
  | rotate {c c' : Clipboard} {l : Ledger} (angles : Pos) : Follows c l →
      c.rotate? angles = some c' → Follows c' ((Move.rotate angles).steps.foldl Ledger.step l)
  | mirror {c : Clipboard} {l : Ledger} (axis : Axis) :
      Follows c l → Follows (c.mirror axis) (l.step (.mirror axis))
  | clear {c : Clipboard} {l : Ledger} : Follows c l → Follows c.clear (.blank l.size)
  | reload {c c' : Clipboard} {l : Ledger} (bs : List UInt8) : Follows c l → c.Fits →
      (∀ e ∈ c.palette, e.Survives) → c.encode? = .ok bs → decode? bs = some (.ok c') → Follows c' l

/-! ## What each operation keeps -/

variable {c c' : Clipboard} {l : Ledger}

/-- A clipboard that is in order and shows what a ledger tells. -/
structure Agrees (c : Clipboard) (l : Ledger) : Prop where
  size : c.size = l.size
  coherent : c.Coherent
  get? : ∀ p, c.get? p = l.get? p

theorem Agrees.new (size : Pos) : Agrees (new size) (.blank (size.sup (.splat 1))) where
  size := rfl
  coherent := new_coherent size
  get? := bare_new size

theorem size_store (c : Clipboard) (p : Pos) (e : Entry) : (c.store p e).size = c.size := by
  unfold Clipboard.store
  split
  · rw [put_eq]
  · rfl

theorem Agrees.store (h : Agrees c l) (p : Pos) (e : Entry) :
    Agrees (c.store p e) (l.store p e) where
  size := by
    rw [size_store, Ledger.size_store]
    exact h.size
  coherent := h.coherent.store p e
  get? := by
    intro q
    have hinside : c.localBox.contains p = true ↔ p.Inside l.size := by
      rw [← h.size]
      exact h.coherent.proper.contains_iff
    rw [get?_store h.coherent, Ledger.get?_store, h.get?]
    simp only [hinside]

theorem Agrees.foldl_store (h : Agrees c l) (place : Pos → Pos) (what : Pos → Entry)
    (ps : List Pos) : Agrees (ps.foldl (fun c p => c.store (place p) (what p)) c)
      (ps.foldl (fun l p => l.store (place p) (what p)) l) := by
  induction ps generalizing c l with
  | nil => exact h
  | cons p ps ih => exact ih (h.store (place p) (what p))

theorem Agrees.capture {R : Type} [Radius R] (r : Region R) (w : World) (player : Pos) :
    Agrees (capture r w player) (.ofRegion r w) := by
  -- the positions of the player are no part of the cells
  obtain ⟨hsize, hcoherent, hget⟩ := (Agrees.new r.box.dims).foldl_store
    (fun p => p - r.box.min) (fun p => w.get ⟨r.dim, p⟩) r.positions
  exact ⟨hsize, ⟨⟨hcoherent.proper, hcoherent.cells⟩, hcoherent.below, hcoherent.index⟩, hget⟩

theorem Agrees.step (h : Agrees c l) (s : Step) : Agrees (s.act c) (l.step s) := by
  have hl := s.layout c.size
  refine ⟨?_, h.coherent.step s, ?_⟩
  · rw [Step.act_eq, Ledger.step, ← h.size]
    rfl
  · intro p
    -- each position is where the step places some position
    have hp : s.place c.size (s.source c.size p) = p := hl.place_source p
    have hplaced : (s.act c).get? (s.place c.size (s.source c.size p)) =
        (c.get? (s.source c.size p)).map (mapBlocks fun b => s.block b) := by
      rw [Step.act_eq]
      exact get?_relocated h.coherent.toSolid hl _
    have hledger := l.get?_step s (s.source c.size p)
    rw [← h.size, hp] at hledger
    rw [hp] at hplaced
    rw [hplaced, hledger, h.get?]

theorem Agrees.steps (h : Agrees c l) (steps : List Step) :
    Agrees (steps.foldl Step.act c) (steps.foldl Ledger.step l) := by
  induction steps generalizing c l with
  | nil => exact h
  | cons s steps ih => exact ih (h.step s)

theorem Agrees.reload {bs : List UInt8} (h : Agrees c l) (hf : c.Fits)
    (hs : ∀ e ∈ c.palette, e.Survives) (hencode : c.encode? = .ok bs)
    (hdecode : decode? bs = some (.ok c')) : Agrees c' l := by
  obtain ⟨bs', hencode', hdecode', -⟩ := decode?_encode? h.coherent hf hs
  obtain rfl := Except.ok.inj (hencode.symm.trans hencode')
  obtain rfl := Except.ok.inj (Option.some.inj (hdecode.symm.trans hdecode'))
  obtain ⟨hsize, hcoherent, hget⟩ := h
  exact ⟨hsize, ⟨⟨hcoherent.proper, hcoherent.cells⟩, hcoherent.below, hcoherent.index⟩, hget⟩

/-- **Any sequence of operations keeps a clipboard and its ledger together.** -/
theorem Follows.agrees (h : Follows c l) : Agrees c l := by
  induction h with
  | new size => exact .new size
  | capture r w player => exact .capture r w player
  | store p e _ ih => exact ih.store p e
  | rotate angles _ hrotate ih =>
    rw [Move.act?_eq (.rotate angles) hrotate]
    exact ih.steps _
  | mirror axis _ ih => exact ih.step (.mirror axis)
  | @clear c l _ ih =>
    have hmax : c.size.sup (.splat 1) = l.size := by
      obtain ⟨hx, hy, hz⟩ := ih.coherent.proper
      rw [← ih.size]
      ext <;> simp only [Pos.sup, Pos.splat_x, Pos.splat_y, Pos.splat_z] <;> omega
    rw [← hmax]
    exact .new c.size
  | reload bs _ hf hs hencode hdecode ih => exact ih.reload hf hs hencode hdecode

/-! ## What a clipboard shows -/

/-- A clipboard is the map that its ledger tells. -/
structure Faithful (c : Clipboard) (l : Ledger) : Prop where
  /-- A position shows what was stored last at it, carried along by the moves since. -/
  get? : ∀ p, c.get? p = l.get? p
  /-- Nothing is outside. -/
  outside : ∀ p, ¬p.Inside c.size → c.get? p = none
  /-- A store is taken just inside; elsewhere it leaves the clipboard as it is. -/
  taken : ∀ p e, c.store? p e = if p.Inside c.size then some (c.store p e) else none
  refused : ∀ p e, ¬p.Inside c.size → c.store p e = c
  /-- A store that is taken shows its entry. No store changes another position or another cell. -/
  stored : ∀ p e, p.Inside c.size → (c.store p e).get? p = some e
  others : ∀ p e q, q ≠ p → (c.store p e).get? q = c.get? q
  cell : ∀ p e i, i ≠ (c.localBox.indexOf p).toNat → (c.store p e).cells[i]? = c.cells[i]?
  /-- The list has each filled cell once, at its position and with its entry. -/
  listed : ∀ p e, (p, e) ∈ c.toList ↔ c.get? p = some e
  once : (c.toList.map Prod.fst).Nodup
  all : c.toList.length = c.count
  /-- Each filled cell has its entry in the palette. -/
  ids : ∀ id, some id ∈ c.cells → id < c.palette.size
  /-- There is a cell for each position. -/
  cells : (c.cells.size : Int) = c.size.x * c.size.y * c.size.z
  /-- The index leads from the blocks of each entry without a tag tree to such an entry with just
  these blocks, and nowhere else. -/
  index : c.index.Indexes c.palette

theorem Agrees.faithful (h : Agrees c l) : Faithful c l where
  get? := h.get?
  outside := by
    intro p hp
    rw [get?_eq]
    exact if_neg fun hin => hp (h.coherent.proper.contains_iff.1 hin)
  taken := by
    intro p e
    have hinside := h.coherent.proper.contains_iff (p := p)
    unfold store? Clipboard.store
    by_cases hp : p.Inside c.size
    · have hin : c.localBox.contains p = true := hinside.2 hp
      rw [if_pos hp, if_pos hin, if_pos hin]
    · have hout : ¬c.localBox.contains p = true := fun hin => hp (hinside.1 hin)
      rw [if_neg hp, if_neg hout]
  refused := by
    intro p e hp
    unfold Clipboard.store
    exact if_neg fun hin => hp (h.coherent.proper.contains_iff.1 hin)
  stored := by
    intro p e hp
    rw [get?_store h.coherent]
    exact if_pos ⟨rfl, h.coherent.proper.contains_iff.2 hp⟩
  others := by
    intro p e q hq
    rw [get?_store h.coherent]
    exact if_neg fun hqp => hq hqp.1
  cell := by
    intro p e i hi
    unfold Clipboard.store
    split
    · rw [put_eq]
      exact Array.getElem?_setIfInBounds_ne hi.symm
    · rfl
  listed := fun p e => mem_toList_iff h.coherent.toSolid
  once := by
    rw [List.Nodup, List.pairwise_map]
    exact c.toList_pairwise
  all := h.coherent.length_toList
  ids := h.coherent.below
  cells := h.coherent.cells
  index := h.coherent.indexes

end Clipboard

/-- **A clipboard is a faithful map.** Whatever is stored, turned, mirrored, cleared, saved and read
again from an empty or a captured clipboard on, it shows at each position what its ledger tells, and
its list, its cells and its index are right. -/
theorem clipboard_faithful {c : Clipboard} {l : Clipboard.Ledger} (h : c.Follows l) :
    c.Faithful l :=
  h.agrees.faithful

/-- Stairs are stored in a buffer of two cells, which is then turned, and stored again as they stand
after the turn. -/
theorem clipboard_faithful_stairs :
    let stairs (facing : String) : Entry :=
      .ofBlock ⟨"minecraft:oak_stairs", 0, [("facing", facing)]⟩
    let c := (Clipboard.new ⟨2, 1, 1⟩).store ⟨1, 0, 0⟩ (stairs "north")
    let c' := (c.turn .y).store ⟨0, 0, 1⟩ (stairs "west")
    let l : Clipboard.Ledger :=
      ⟨⟨1, 1, 2⟩, [(⟨0, 0, 1⟩, stairs "west"), (⟨0, 0, 0⟩, stairs "west")]⟩
    c'.Follows l ∧ c'.Faithful l ∧ c'.get? ⟨0, 0, 0⟩ = some (stairs "west") ∧
      c'.get? ⟨0, 0, 1⟩ = some (stairs "west") := by
  intro stairs c c' l
  have hc : c.Follows ((Clipboard.Ledger.blank ⟨2, 1, 1⟩).store ⟨1, 0, 0⟩ (stairs "north")) :=
    .store _ _ (.new _)
  have hturn : c.rotate? ⟨0, 90, 0⟩ = some (c.turn .y) := rfl
  have hfollows : c'.Follows l := .store _ _ (.rotate _ hc hturn)
  have hfaithful := clipboard_faithful hfollows
  refine ⟨hfollows, hfaithful, ?_, ?_⟩
  · rw [hfaithful.get?]
    rfl
  · rw [hfaithful.get?]
    rfl

end VoxelEdit
