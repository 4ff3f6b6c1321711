import Mathlib.Tactic.IntervalCases
import VoxelEdit.Proofs.BlockTurns
import VoxelEdit.Proofs.ClipboardPalette

/-!
# The laws of quarter turns and mirrors

Quarter turns and mirrors of whole clipboards compose as the rotations and reflections of space do.

* `Step.frame`: a step as a map of positions together with the size of their buffer, so that it can be
  followed outside of the buffer, too.
* `cell?_steps`: after steps each cell holds what the cell held that they bring there.
* `Step.Alike`: lists of steps that move all frames and bearings alike. `steps_congr`: **steps that are
  alike lead to the same clipboard**, cells, palette, index and all.
* `Step.four_turns`, `Step.two_mirrors`, `Step.mirrors_turn`, `Step.mirror_turn`: the laws for steps.
* `turns_and_mirrors_compose`: **the laws for rotations by any multiples of a right angle.**
-/

namespace VoxelEdit.Clipboard

variable {c d : Clipboard} {p q : Pos}

/-! ## Frames -/

namespace Step

/-- What a step does to a position and the size of the buffer that it is meant for. -/
def frame (f : Pos × Pos) (s : Step) : Pos × Pos := (s.place f.2 f.1, s.resize f.2)

/-- Lists of steps that move positions and bearings alike. -/
structure Alike (l l' : List Step) : Prop where
  frames : ∀ f : Pos × Pos, l.foldl frame f = l'.foldl frame f
  bearings : ∀ m : Bearing, m.Small → l.foldl bearing m = l'.foldl bearing m

/-- Where a step leads does not depend on the position. -/
theorem foldl_frame_snd (l : List Step) (p size : Pos) :
    (l.foldl frame (p, size)).2 = l.foldl (fun size s => s.resize size) size := by
  induction l generalizing p size with
  | nil => rfl
  | cons s l ih => exact ih _ _

end Step

/-! ## What steps leave -/

theorem steps_size (c : Clipboard) (l : List Step) :
    (l.foldl Step.act c).size = l.foldl (fun size s => s.resize size) c.size := by
  induction l generalizing c with
  | nil => rfl
  | cons s l ih =>
    rw [List.foldl_cons, ih, List.foldl_cons, Step.act_eq]
    rfl

theorem steps_relative (c : Clipboard) (l : List Step) :
    (l.foldl Step.act c).relative = (l.foldl Step.frame (c.relative, c.size)).1 := by
  induction l generalizing c with
  | nil => rfl
  | cons s l ih =>
    rw [List.foldl_cons, ih, List.foldl_cons, Step.act_eq]
    rfl

theorem steps_kept (c : Clipboard) (l : List Step) :
    (l.foldl Step.act c).player = c.player ∧ (l.foldl Step.act c).used = c.used := by
  induction l generalizing c with
  | nil => exact ⟨rfl, rfl⟩
  | cons s l ih =>
    have h := ih (s.act c)
    rw [Step.act_eq] at h
    rw [List.foldl_cons, Step.act_eq]
    exact h

theorem steps_palette (c : Clipboard) (l : List Step) :
    (l.foldl Step.act c).palette = c.palette.map (mapBlocks fun b => l.foldl Step.block b) := by
  induction l generalizing c with
  | nil =>
    have hid : mapBlocks (fun b => b) = id := by
      funext e
      simp [mapBlocks]
    show c.palette = c.palette.map (mapBlocks fun b => b)
    rw [hid, Array.map_id]
  | cons s l ih =>
    rw [List.foldl_cons, ih, Step.act_eq]
    show (c.palette.map (mapBlocks fun b => s.block b)).map _ = _
    rw [Array.map_map]
    refine congrArg (fun f => c.palette.map f) (funext fun e => ?_)
    exact mapBlocks_mapBlocks _ _ e

/-- A step takes each cell along. -/
theorem cell?_act (hc : c.Solid) (s : Step) (hp : p.Inside c.size) :
    (s.place c.size p).Inside (s.act c).size ∧
      (s.act c).cell? ((s.act c).localBox.indexOf (s.place c.size p)) =
        c.cell? (c.localBox.indexOf p) := by
  rw [Step.act_eq]
  exact ⟨((s.layout c.size).inside p).2 hp, cell?_moveCells hc (s.layout c.size) p hp⟩

/-- **Steps take each cell along.** -/
theorem cell?_steps (hc : c.Solid) (l : List Step) (hp : p.Inside c.size) :
    (l.foldl Step.act c).cell?
        ((l.foldl Step.act c).localBox.indexOf (l.foldl Step.frame (p, c.size)).1) =
      c.cell? (c.localBox.indexOf p) := by
  induction l generalizing c p with
  | nil => rfl
  | cons s l ih =>
    obtain ⟨hin, hcell⟩ := cell?_act hc s hp
    have hsize : (s.act c).size = s.resize c.size := by
      rw [Step.act_eq]
      rfl
    rw [List.foldl_cons, List.foldl_cons, Step.frame, ← hcell, ← hsize]
    exact ih (s.solid hc) hin

/-- Each cell is brought there from somewhere. -/
theorem exists_source (hc : c.Solid) (l : List Step) (hq : q.Inside (l.foldl Step.act c).size) :
    ∃ p, p.Inside c.size ∧ (l.foldl Step.frame (p, c.size)).1 = q := by
  induction l generalizing c with
  | nil => exact ⟨q, hq, rfl⟩
  | cons s l ih =>
    obtain ⟨p, hp, hpq⟩ := ih (s.solid hc) hq
    have hsize : (s.act c).size = s.resize c.size := by
      rw [Step.act_eq]
      rfl
    have hl := s.layout c.size
    rw [hsize] at hp hpq
    refine ⟨s.source c.size p, (hl.inside _).1 ?_, ?_⟩
    · rw [hl.place_source]
      exact hp
    · rw [List.foldl_cons, Step.frame]
      show (l.foldl Step.frame (s.place c.size (s.source c.size p), s.resize c.size)).1 = q
      rw [hl.place_source]
      exact hpq

/-- Solid clipboards of one size whose positions have the same numbers have the same cells. -/
theorem cells_ext (hc : c.Solid) (hd : d.Solid) (hsize : c.size = d.size)
    (h : ∀ q, q.Inside c.size → c.cell? (c.localBox.indexOf q) = d.cell? (d.localBox.indexOf q)) :
    c.cells = d.cells := by
  have hbox : c.localBox = d.localBox := congrArg (Box.ofSize .zero) hsize
  have hcount : c.cells.size = d.cells.size := by
    have h1 := hc.cells
    have h2 := hd.cells
    rw [hsize] at h1
    omega
  refine Array.ext hcount fun i hi hi' => ?_
  have hvolume : (i : Int) < c.localBox.volume :=
    (hc.lt_size_iff (Int.natCast_nonneg i)).1 (by simpa using hi)
  have hb := c.localBox_ordered
  have hin : c.localBox.contains (c.localBox.posAt i) = true :=
    Box.contains_posAt hb (Int.natCast_nonneg i) hvolume
  have hcell := h _ (hc.proper.contains_iff.1 hin)
  rw [← hbox, Box.indexOf_posAt hb] at hcell
  unfold cell? at hcell
  rw [Int.toNat_natCast, Array.getElem?_eq_getElem hi, Array.getElem?_eq_getElem hi'] at hcell
  exact hcell

/-! ## Steps that are alike -/

/-- All blocks of the palette have plain rotations. -/
def PlainRotations (c : Clipboard) : Prop :=
  ∀ e ∈ c.palette, e.block.PlainRotation ∧ ∀ b, e.extra = some b → b.PlainRotation

theorem PlainRotations.mapBlocks_congr {l l' : List Step} (hc : c.PlainRotations)
    (h : ∀ m : Bearing, m.Small → l.foldl Step.bearing m = l'.foldl Step.bearing m) :
    c.palette.map (mapBlocks fun b => l.foldl Step.block b) =
      c.palette.map (mapBlocks fun b => l'.foldl Step.block b) := by
  refine Array.map_congr_left fun e he => ?_
  obtain ⟨hblock, hextra⟩ := hc e he
  unfold mapBlocks
  dsimp only
  rw [Step.foldl_block_congr h hblock]
  refine congrArg (fun extra => { e with block := l'.foldl Step.block e.block, extra }) ?_
  exact Option.map_congr fun b hb => Step.foldl_block_congr h (hextra b hb)

/-- Equal clipboards have equal parts. -/
theorem ext_parts (hsize : c.size = d.size) (hcells : c.cells = d.cells) (hpalette : c.palette = d.palette)
    (hindex : c.index = d.index) (hplayer : c.player = d.player) (hrelative : c.relative = d.relative)
    (hused : c.used = d.used) : c = d := by
  cases c
  cases d
  dsimp only at hsize hcells hpalette hindex hplayer hrelative hused
  subst hsize hcells hpalette hindex hplayer hrelative hused
  rfl

/-- **Steps that are alike lead to the same clipboard.** -/
theorem steps_congr (hc : c.Coherent) (hplain : c.PlainRotations) {l l' : List Step}
    (h : Step.Alike l l') : l.foldl Step.act c = l'.foldl Step.act c := by
  have hsize : (l.foldl Step.act c).size = (l'.foldl Step.act c).size := by
    rw [steps_size, steps_size, ← Step.foldl_frame_snd l c.relative,
      ← Step.foldl_frame_snd l' c.relative, h.frames]
  have hpalette : (l.foldl Step.act c).palette = (l'.foldl Step.act c).palette := by
    rw [steps_palette, steps_palette]
    exact hplain.mapBlocks_congr h.bearings
  have hcells : (l.foldl Step.act c).cells = (l'.foldl Step.act c).cells := by
    refine cells_ext (hc.steps l).toSolid (hc.steps l').toSolid hsize fun q hq => ?_
    obtain ⟨p, hp, rfl⟩ := exists_source hc.toSolid l hq
    rw [cell?_steps hc.toSolid l hp, h.frames, cell?_steps hc.toSolid l' hp]
  refine ext_parts hsize hcells hpalette ?_ ?_ ?_ ?_
  · rw [(hc.steps l).index, (hc.steps l').index, hpalette]
  · rw [(steps_kept c l).1, (steps_kept c l').1]
  · rw [steps_relative, steps_relative, h.frames]
  · rw [(steps_kept c l).2, (steps_kept c l').2]

/-! ## The laws for steps -/

namespace Step

/-- Four quarter turns about an axis lead back. -/
theorem four_turns (axis : Axis) : Alike (List.replicate 4 (turn axis)) [] where
  frames := by
    rintro ⟨p, size⟩
    refine Prod.ext ?_ ?_
    · cases axis <;> ext <;>
        simp [List.replicate, frame, place, resize, Pos.turn, Pos.turnSize, Axis.plane, Pos.set, Pos.get]
    · cases axis <;> rfl
  bearings := by
    intro m hm
    cases m with
    | facing f => cases axis <;> cases f <;> rfl
    | axis own => cases axis <;> cases own <;> rfl
    | half upper => rfl
    | rotation r =>
      cases axis with
      | x | z => rfl
      | y =>
        obtain ⟨h0, h16⟩ := hm
        interval_cases r <;> rfl

/-- Two mirrors along an axis lead back. -/
theorem two_mirrors (axis : Axis) : Alike [mirror axis, mirror axis] [] where
  frames := by
    rintro ⟨p, size⟩
    exact Prod.ext (p.mirror_mirror size axis) rfl
  bearings := by
    intro m hm
    cases m with
    | facing f => cases axis <;> cases f <;> rfl
    | axis own => rfl
    | half upper => cases axis <;> cases upper <;> rfl
    | rotation r =>
      obtain ⟨h0, h16⟩ := hm
      cases axis with
      | y => rfl
      | x | z => interval_cases r <;> rfl

/-- A mirror along each horizontal axis is half a turn about the vertical. -/
theorem mirrors_turn : Alike [mirror .x, mirror .z] [turn .y, turn .y] where
  frames := by
    rintro ⟨p, size⟩
    refine Prod.ext ?_ rfl
    ext <;> simp [frame, place, resize, Pos.mirror, Pos.turn, Pos.turnSize, Axis.plane, Pos.set, Pos.get]
  bearings := by
    intro m hm
    cases m with
    | facing f => cases f <;> rfl
    | axis own => cases own <;> rfl
    | half upper => rfl
    | rotation r =>
      obtain ⟨h0, h16⟩ := hm
      interval_cases r <;> rfl

/-- A quarter turn after a mirror is one the other way before it. -/
theorem mirror_turn :
    Alike [mirror .x, turn .y] (List.replicate 3 (turn .y) ++ [mirror .x]) where
  frames := by
    rintro ⟨p, size⟩
    refine Prod.ext ?_ rfl
    ext <;> simp [List.replicate, frame, place, resize, Pos.mirror, Pos.turn, Pos.turnSize, Axis.plane,
      Pos.set, Pos.get]
  bearings := by
    intro m hm
    cases m with
    | facing f => cases f <;> rfl
    | axis own => cases own <;> rfl
    | half upper => rfl
    | rotation r =>
      obtain ⟨h0, h16⟩ := hm
      interval_cases r <;> rfl

end Step

/-! ## The laws for clipboards -/

/-- A rotation about one axis is as many quarter turns as its angle has right angles, up to four. -/
theorem rotate?_about (c : Clipboard) (axis : Axis) {a : Int} (ha : a % 90 = 0) :
    c.rotate? (Pos.zero.set axis a) =
      some ((List.replicate (a / 90 % 4).toNat (Step.turn axis)).foldl Step.act c) := by
  have hall : (Axis.all.all fun axis' => (Pos.zero.set axis a).get axis' % 90 = 0) = true := by
    cases axis <;> simp only [Axis.all, List.all_cons, List.all_nil, Pos.set, Pos.get, Pos.zero_x,
      Pos.zero_y, Pos.zero_z, ha, Int.zero_emod, decide_true, Bool.and_self]
  unfold rotate?
  rw [if_pos hall, ← Move.turns_eq]
  cases axis <;> rfl

/-- Of quarter turns about one axis only the number modulo four counts. -/
theorem turns_mod (hc : c.Coherent) (hplain : c.PlainRotations) (axis : Axis) (n : ℕ) :
    (List.replicate n (Step.turn axis)).foldl Step.act c =
      (List.replicate (n % 4) (Step.turn axis)).foldl Step.act c := by
  induction n using Nat.strongRecOn with
  | ind n ih =>
    by_cases hn : n < 4
    · rw [Nat.mod_eq_of_lt hn]
    · obtain ⟨m, rfl⟩ : ∃ m, n = 4 + m := ⟨n - 4, by omega⟩
      rw [List.replicate_add, List.foldl_append, steps_congr hc hplain (Step.four_turns axis),
        List.foldl_nil, ih m (by omega), Nat.add_mod_left]

/-- **Turns and mirrors of clipboards obey the laws of a group**, block states included: turns about one
axis add up, and four of them change nothing; a mirror along any axis is its own inverse; mirrors along
both horizontal axes are half a turn; and a mirror turns a quarter turn round. The clipboards are equal
in their size, cells, palette, index, player and flag. -/
theorem turns_and_mirrors_compose (hc : c.Made) (hplain : c.PlainRotations) :
    (∀ (axis : Axis) (a b : Int), a % 90 = 0 → b % 90 = 0 →
      ∃ c₁ c₂, c.rotate? (Pos.zero.set axis a) = some c₁ ∧
        c₁.rotate? (Pos.zero.set axis b) = some c₂ ∧ c.rotate? (Pos.zero.set axis (a + b)) = some c₂) ∧
    (∀ axis, c.turns 4 axis = c ∧ c.rotate? (Pos.zero.set axis 360) = some c) ∧
    (∀ axis, (c.mirror axis).mirror axis = c) ∧
    c.rotate? ⟨0, 180, 0⟩ = some ((c.mirror .x).mirror .z) ∧
    ∃ c₁, c.rotate? ⟨0, -90, 0⟩ = some c₁ ∧ (c.mirror .x).rotate? ⟨0, 90, 0⟩ = some (c₁.mirror .x) := by
  have hcoherent := hc.coherent
  refine ⟨fun axis a b ha hb => ?_, fun axis => ⟨?_, ?_⟩, fun axis => ?_, ?_, ?_⟩
  · refine ⟨_, _, c.rotate?_about axis ha, rotate?_about _ axis hb, ?_⟩
    rw [c.rotate?_about axis (show (a + b) % 90 = 0 by omega), ← List.foldl_append,
      ← List.replicate_add, turns_mod hcoherent hplain axis (_ + _)]
    have hcount : ((a / 90 % 4).toNat + (b / 90 % 4).toNat) % 4 = ((a + b) / 90 % 4).toNat := by
      omega
    rw [hcount]
  · rw [Move.turns_eq]
    exact steps_congr hcoherent hplain (Step.four_turns axis)
  · exact c.rotate?_about axis (by decide)
  · exact steps_congr hcoherent hplain (Step.two_mirrors axis)
  · have h := steps_congr hcoherent hplain Step.mirrors_turn
    exact congrArg some h.symm
  · refine ⟨_, c.rotate?_about .y (a := -90) (by decide), ?_⟩
    have h := steps_congr hcoherent hplain Step.mirror_turn
    rw [List.foldl_append] at h
    exact congrArg some h

/-- A sign that stands at a sixteenth of a turn is turned there and back, and mirrored twice. -/
theorem turns_and_mirrors_compose_sign :
    ∃ c : Clipboard, c.Made ∧ c.PlainRotations ∧ c.palette.size = 1 ∧
      (∃ c₁, c.rotate? ⟨0, 90, 0⟩ = some c₁ ∧ c₁.rotate? ⟨0, 270, 0⟩ = some c) ∧
      (c.mirror .x).mirror .x = c := by
  let sign : Block := ⟨"minecraft:oak_sign", 0, [("rotation", "15"), ("half", "top"), ("facing", "west")]⟩
  let c := (new ⟨2, 1, 3⟩).store ⟨1, 0, 2⟩ (.ofBlock sign)
  have hmade : c.Made := .store ⟨1, 0, 2⟩ (.ofBlock sign) (.new ⟨2, 1, 3⟩)
  have hpalette : c.palette = #[Entry.ofBlock sign] := by
    have hin : (new ⟨2, 1, 3⟩).localBox.contains ⟨1, 0, 2⟩ = true := by decide
    show ((new ⟨2, 1, 3⟩).store ⟨1, 0, 2⟩ (.ofBlock sign)).palette = _
    rw [Clipboard.store, if_pos hin, put_eq, intern_new]
  have hsign : sign.PlainRotation := by
    intro v hv
    obtain rfl : "15" = v := Option.some.inj hv
    exact .inr ⟨15, by decide, by decide⟩
  have hplain : c.PlainRotations := by
    intro e he
    rw [hpalette] at he
    obtain rfl := Array.mem_singleton.1 he
    refine ⟨hsign, ?_⟩
    rintro b ⟨⟩
  obtain ⟨hadd, hfour, hmirror, -, -⟩ := turns_and_mirrors_compose hmade hplain
  obtain ⟨c₁, c₂, h₁, h₂, h₃⟩ := hadd .y 90 270 (by decide) (by decide)
  obtain rfl : c₂ = c := Option.some.inj (h₃.symm.trans (hfour .y).2)
  exact ⟨c, hmade, hplain, congrArg Array.size hpalette, ⟨c₁, h₁, h₂⟩, hmirror .x⟩

end VoxelEdit.Clipboard
