import VoxelEdit.Proofs.CopyPaste
import VoxelEdit.Proofs.FailedEdit
import VoxelEdit.Proofs.TilingText

/-!
# The clipboard tiles space

A captured region is laid out over space from the smallest corner of the region that is acted on. A
position shows what the captured one held at its remainder in the box, and nothing where that
remainder lies outside of the captured region.

* `Region.tile`: what a tiling by a region shows at a distance from its first corner; it repeats with
  the box (`Region.tile_slide`) and shows the region itself around that corner (`Region.tile_self`).
* `Clipboard.getTiled?_capture`: a captured region answers as the tiling by the region.
* `Workspace.get_fill_standing`: a fill with what stands there already changes nothing.
* `Workspace.clipboard_tiles`: **the pattern `#clipboard` shows the tiling by the captured region,
  and a fill of that region with it right after the copy leaves the world as it was.**
-/

namespace VoxelEdit

open Sampling

/-! ## Remainders -/

namespace Pos

/-- The remainder of a position in a buffer of a size, which is not negative. -/
def residue (p size : Pos) : Pos := ⟨p.x % size.x, p.y % size.y, p.z % size.z⟩

variable {p size : Pos}

theorem residue_inside (h : size.Proper) (p : Pos) : (p.residue size).Inside size := by
  obtain ⟨hx, hy, hz⟩ := h
  exact ⟨⟨Int.emod_nonneg _ (by omega), Int.emod_lt_of_pos _ (by omega)⟩,
    ⟨Int.emod_nonneg _ (by omega), Int.emod_lt_of_pos _ (by omega)⟩,
    Int.emod_nonneg _ (by omega), Int.emod_lt_of_pos _ (by omega)⟩

/-- What lies inside is its own remainder. -/
theorem residue_of_inside (h : p.Inside size) : p.residue size = p := by
  obtain ⟨⟨hx, hx'⟩, ⟨hy, hy'⟩, hz, hz'⟩ := h
  ext
  · exact Int.emod_eq_of_lt hx hx'
  · exact Int.emod_eq_of_lt hy hy'
  · exact Int.emod_eq_of_lt hz hz'

/-- A position moved along an axis. -/
def slide (p : Pos) (axis : Axis) (n : Int) : Pos := p.set axis (p.get axis + n)

/-- Whole sizes along an axis leave the remainder alone. -/
theorem residue_slide (p size : Pos) (axis : Axis) (n : Int) :
    (p.slide axis (n * size.get axis)).residue size = p.residue size := by
  cases axis <;> ext <;> simp only [slide, residue, set, get, Int.add_mul_emod_self_right]

theorem slide_sub_add (p q o : Pos) (axis : Axis) (n : Int) :
    p.slide axis n - q + o = (p - q + o).slide axis n := by
  cases axis <;> ext <;> simp only [slide, set, get, add_x, add_y, add_z, sub_x, sub_y, sub_z] <;> omega

end Pos

/-- A box that is not empty has proper extents. -/
theorem Box.Ordered.proper {b : Box} (hb : b.Ordered) : b.dims.Proper := by
  obtain ⟨hx, hy, hz⟩ := hb
  simp only [Pos.Proper, Box.dims_x, Box.dims_y, Box.dims_z]
  omega

/-- So a buffer of these extents needs no more room. -/
theorem Box.Ordered.dims_sup_one {b : Box} (hb : b.Ordered) : b.dims.sup (.splat 1) = b.dims := by
  obtain ⟨hx, hy, hz⟩ := hb.proper
  ext
  · exact max_eq_left hx
  · exact max_eq_left hy
  · exact max_eq_left hz

/-! ## The tiling by a region -/

namespace Region

variable {R : Type} [Radius R] (s : Region R) (w : World)

/-- What a tiling by a region of a world shows at a distance from the corner that it starts from: what
stands at the remainder of the distance, if that is part of the region. -/
def tile (d : Pos) : Option Entry :=
  let q := s.box.min + d.residue s.box.dims
  if s.contains q then some (w.get ⟨s.dim, q⟩) else none

/-- **A tiling repeats along each axis**, with the extent of the box. -/
theorem tile_slide (d : Pos) (axis : Axis) (n : Int) :
    s.tile w (d.slide axis (n * s.box.dims.get axis)) = s.tile w d := by
  unfold tile
  rw [Pos.residue_slide]

variable {s}

/-- Inside the box, the positions of a region are those that it contains. -/
theorem mem_positions_of_inside {d : Pos} (hd : d.Inside s.box.dims) :
    d + s.box.min ∈ s.positions ↔ s.contains (d + s.box.min) = true := by
  obtain ⟨⟨hx, hx'⟩, ⟨hy, hy'⟩, hz, hz'⟩ := hd
  have hbox : s.box.contains (d + s.box.min) = true := by
    rw [Box.contains_iff]
    simp only [Box.dims_x, Box.dims_y, Box.dims_z] at hx' hy' hz'
    simp only [Pos.add_x, Pos.add_y, Pos.add_z]
    omega
  unfold positions
  rw [List.mem_filter, Box.mem_positions]
  exact ⟨And.right, fun h => ⟨hbox, h⟩⟩

/-- A tiling shows the region itself around the corner that it starts from. -/
theorem tile_self (hb : s.box.Ordered) {p : Pos} (hp : p ∈ s.positions) :
    s.tile w (p - s.box.min) = some (w.get ⟨s.dim, p⟩) := by
  have hcontains : s.contains p = true := (List.mem_filter.1 hp).2
  have hinside := Clipboard.inside_of_mem_positions hb hp
  rw [hb.dims_sup_one] at hinside
  have hback : s.box.min + (p - s.box.min) = p := by ext <;> simp
  unfold tile
  rw [Pos.residue_of_inside hinside, hback]
  exact if_pos hcontains

end Region

theorem Clipboard.size_capture {R : Type} [Radius R] (s : Region R) (w : World) (player : Pos) :
    (capture s w player).size = s.box.dims.sup (.splat 1) := by
  refine List.foldlRecOn (motive := fun c : Clipboard => c.size = s.box.dims.sup (.splat 1))
    s.positions _ rfl ?_
  intro c hc p _
  rw [size_store, hc]

/-- **A captured region answers as the tiling by the region.** -/
theorem Clipboard.getTiled?_capture {R : Type} [Radius R] {s : Region R} (hb : s.box.Ordered)
    (w : World) (player d : Pos) : (capture s w player).getTiled? d = s.tile w d := by
  have hsize : (capture s w player).size = s.box.dims :=
    (size_capture s w player).trans hb.dims_sup_one
  have htiled : (capture s w player).getTiled? d =
      (capture s w player).get? (d.residue (capture s w player).size) := rfl
  have hcomm : d.residue s.box.dims + s.box.min = s.box.min + d.residue s.box.dims := by
    ext <;> exact Int.add_comm _ _
  have hinside : (d.residue s.box.dims).Inside s.box.dims := Pos.residue_inside hb.proper d
  rw [htiled, hsize, get?_capture w player hb]
  unfold Region.tile
  dsimp only
  rw [← hcomm]
  simp only [Region.mem_positions_of_inside hinside]

/-- A tiling by a captured region, over a region that is acted on. -/
theorem Pattern.sample_tiling {R : Type} [Radius R] {s : Region R} (hb : s.box.Ordered) (w : World)
    (player : Pos) {scene : Scene R} {r : Region R} (hc : scene.clipboard = some (.capture s w player))
    (hr : scene.region = some r) (vars : Variables) (text : String) (o p : Pos) :
    sample scene vars ⟨text, .clipboard ⟨false, o⟩⟩ p = pure (s.tile w (p - r.box.min + o)) := by
  have hbias : p - (Tiling.mk false o).bias scene.region = p - r.box.min + o := by
    rw [hr]
    show p - (r.box.min - o) = _
    ext <;> simp only [Pos.add_x, Pos.add_y, Pos.add_z, Pos.sub_x, Pos.sub_y, Pos.sub_z] <;> omega
  have hused : (Clipboard.capture s w player).used = true := rfl
  unfold sample
  dsimp only
  rw [hc, hbias]
  dsimp only
  rw [if_pos hused, Clipboard.getTiled?_capture hb]

/-! ## Fills that change nothing -/

section

variable {α β : Type} {x : α → Sampling β} {g : α → β} {d d' : Draws} {as : List α} {bs : List β}

/-- What samples without draws give. -/
theorem Samples.eq_map (h : Samples x d as bs d') (hx : ∀ a ∈ as, x a = pure (g a)) :
    bs = as.map g := by
  induction h with
  | nil => rfl
  | cons ha _ ih =>
    rw [hx _ List.mem_cons_self] at ha
    have hb := Except.ok.inj (Prod.mk.inj ha).1
    rw [List.map_cons, hb, ih fun a ha => hx a (List.mem_cons_of_mem _ ha)]

/-- Samples without draws are made. -/
theorem Samples.of_pure (hx : ∀ a ∈ as, x a = pure (g a)) (d : Draws) : Samples x d as (as.map g) d := by
  induction as with
  | nil => exact .nil d
  | cons a as ih =>
    have ha : (x a).answer d = (.ok (g a), d) := by
      rw [hx a List.mem_cons_self]
      rfl
    exact .cons ha (ih fun b hb => hx b (List.mem_cons_of_mem a hb))

end

namespace Workspace

variable {R : Type} [Radius R] (tools : EditTools) {ws : Workspace R} {s : Region R}
  {pattern : Pattern}

/-- What an edit finds where the pattern draws nothing. -/
theorem Paints.found_eq {tools : EditTools} {wanted : Pos → Bool} {ws' : Workspace R} {n : Nat}
    {found g : Pos → Option Entry} (h : ws.Paints tools s wanted pattern ws' n found)
    (hsample : ∀ p ∈ s.positions, pattern.sampleIn (ws.scene tools s) s.box p = pure (g p)) {p : Pos}
    (hp : p ∈ ws.picked tools s wanted) : found p = g p :=
  List.map_inj_left.1 (h.sampled.eq_map fun q hq => hsample q (List.mem_filter.1 hq).1) p hp

theorem fill_eq_perform (hr : ws.session.region = some s) : ws.fill tools pattern =
    ws.perform s.dim (Plan.ofPattern (ws.scene tools s) ws.session.mask pattern s.box
      (s.positions.filter fun _ => true)) := by
  unfold fill
  rw [hr, List.filter_eq_self.2 fun _ _ => rfl]

section

variable (hw : ws.world.Made) (hr : ws.session.region = some s)
  (hsample : ∀ p ∈ s.positions, pattern.sampleIn (ws.scene tools s) s.box p =
    pure (some (ws.world.get ⟨s.dim, p⟩)))

include hw hr hsample

/-- **A fill with what stands there already changes nothing**, whatever the mask. -/
theorem get_fill_standing (t : Site) : (ws.fill tools pattern).1.world.get t = ws.world.get t := by
  rw [fill_eq_perform tools hr]
  rcases hresult : (ws.perform s.dim (Plan.ofPattern (ws.scene tools s) ws.session.mask pattern s.box
    (s.positions.filter fun _ => true))).2 with e | n
  · -- an edit that fails has written nothing
    obtain ⟨sampling, hkept⟩ := ws.perform_kept hresult
    rw [hkept]
  · obtain ⟨found, hpaints⟩ := perform_paints tools s hw.free _ pattern hresult
    rw [hpaints.view]
    by_cases hdim : t.dim = s.dim
    · rw [if_pos hdim]
      by_cases hp : t.pos ∈ ws.picked tools s fun _ => true
      · have hsite : (⟨s.dim, t.pos⟩ : Site) = t := by rw [← hdim]
        rw [hpaints.found_eq hsample hp, hsite]
        exact hw.tidy t
      · rw [hpaints.nowhere_else t.pos hp]
        rfl
    · rw [if_neg hdim]

/-- Without a mask it counts all positions. -/
theorem fill_standing_count (hm : ws.session.mask = none) :
    (ws.fill tools pattern).2 = .ok s.positions.length := by
  have hall : s.positions.filter (fun _ => true) = s.positions := List.filter_eq_self.2 fun _ _ => rfl
  have hadmits : Plan.admits tools.functions ws.session.mask s.box = fun _ => true := by
    rw [hm]
    rfl
  have hpicked : ws.picked tools s (fun _ => true) = s.positions := by
    unfold picked
    rw [hadmits]
    exact hall
  have hsamples := Samples.of_pure hsample ws.sampling.draws
  rw [fill_eq_perform tools hr]
  have hread : ∀ text, ws.session.mask = some text → (Expr.parse text).isOk := by
    rw [hm]
    exact nofun
  have hvalue : ∀ p ∈ s.positions.filter fun _ => true,
      ∃ v, Plan.maskValue tools.functions ws.session.mask s.box p = .ok v := by
    rw [hm]
    exact fun _ _ => ⟨true, rfl⟩
  obtain ⟨n, hn⟩ := perform_done tools s s.dim pattern hread hvalue
    (by rw [hadmits, hall, hall]; exact hsamples)
  obtain ⟨found, hpaints⟩ := perform_paints tools s hw.free _ pattern hn
  have hnodup : s.positions.Nodup := s.box.positions_pairwise.nodup.filter _
  have hfound : s.positions.filter (fun p => (found p).isSome) = s.positions :=
    List.filter_eq_self.2 fun p hp => by rw [hpaints.found_eq hsample (hpicked ▸ hp)]; rfl
  have hcount := Plan.length_ofFindings hnodup (hpicked ▸ hpaints.nowhere_else)
  rw [← List.length_map Prod.fst, Plan.positions_ofFindings, hfound] at hcount
  rw [hn, hpaints.count, hcount]

end

/-- Over the copied region itself the clipboard shows what stands there. -/
theorem sampleIn_copied (hb : s.box.Ordered) (hs : ws.session.region = some s) (player : Pos)
    (text : String) : ∀ p ∈ s.positions, Pattern.sampleIn ((ws.copy player).1.scene tools s)
      ⟨text, .clipboard ⟨false, .zero⟩⟩ s.box p = pure (some (ws.world.get ⟨s.dim, p⟩)) := by
  intro p hp
  have hzero : p - s.box.min + .zero = p - s.box.min := by
    ext <;> exact Int.add_zero _
  rw [copy_eq hs player]
  unfold Pattern.sampleIn
  rw [Pattern.sample_tiling hb ws.world player rfl rfl, hzero, Region.tile_self ws.world hb hp]

/-- A copy counts the positions of the region. -/
theorem count_copied (hb : s.box.Ordered) (hs : ws.session.region = some s) (player : Pos) :
    (ws.copy player).2 = .ok s.positions.length := by
  have hcount := Clipboard.count_capture ws.world player hb
  have hlength := Region.size_eq_length hb
  have hsame : (Clipboard.capture s ws.world player).count = s.positions.length := by omega
  rw [copy_eq hs player, hsame]

/-- **The clipboard tiles space with the captured region.** After a copy of a region, the pattern
`#clipboard` with an offset, over any region that is acted on, shows at a position what the copied
world held at the remainder of its distance from the corner, moved on by the offset: an entry if that
is part of the copied region, and else nothing. It draws nothing, cannot fail, and repeats along each
axis with the extent of the box. A fill of the copied region with `#clipboard` right after the copy
leaves the world as it was, and without a mask it answers as the copy did. -/
theorem clipboard_tiles (hs : ws.session.region = some s) (hreached : s.Reached)
    (hw : ws.world.Made) (player : Pos) :
    (∀ o : Pos, o.InWorld → ∃ pattern, Pattern.parse (Pattern.clipboardAt o) = .ok pattern ∧
      ∀ (functions : Functions) (registry : BlockRegistry) (r : Region R) (vars : Variables) (p : Pos),
        let scene : Scene R :=
          ⟨functions, registry, some (ws.copy player).1.session.clipboard, some r⟩
        pattern.sample scene vars p = pure (s.tile ws.world (p - r.box.min + o)) ∧
          ∀ axis n, pattern.sample scene vars (p.slide axis (n * s.box.dims.get axis)) =
            pattern.sample scene vars p) ∧
      ∃ pattern, Pattern.parse "#clipboard" = .ok pattern ∧
        (∀ t, ((ws.copy player).1.fill tools pattern).1.world.get t = ws.world.get t) ∧
        (ws.session.mask = none →
          ((ws.copy player).1.fill tools pattern).2 = (ws.copy player).2) := by
  have hb : s.box.Ordered := hreached.sound.ordered
  have hcopy := copy_eq hs player
  constructor
  · intro o ho
    refine ⟨_, Pattern.parse_clipboardAt ho, fun functions registry r vars p => ?_⟩
    rw [hcopy]
    intro scene
    have hsample (q : Pos) : Pattern.sample scene vars
        ⟨Pattern.clipboardAt o, .clipboard ⟨false, o⟩⟩ q = pure (s.tile ws.world (q - r.box.min + o)) :=
      Pattern.sample_tiling hb ws.world player rfl rfl vars _ o q
    refine ⟨hsample p, fun axis n => ?_⟩
    rw [hsample, hsample, Pos.slide_sub_add, Region.tile_slide]
  · have hregion : (ws.copy player).1.session.region = some s := by
      rw [hcopy]
      exact hs
    have hworld : (ws.copy player).1.world = ws.world := by rw [hcopy]
    have hmade : (ws.copy player).1.world.Made := hworld.symm ▸ hw
    have hmask : (ws.copy player).1.session.mask = ws.session.mask := by rw [hcopy]
    have hsample := sampleIn_copied tools hb hs player "#clipboard"
    rw [← hworld] at hsample
    refine ⟨_, Pattern.parse_clipboard, fun t => ?_, fun hm => ?_⟩
    · rw [get_fill_standing tools hmade hregion hsample, hworld]
    · rw [fill_standing_count tools hmade hregion hsample (hmask.trans hm), count_copied hb hs]

/-- A stone in a triangle shows again in a repetition of the triangle outside of another region. A
corner of the box that is no part of the triangle shows nothing. -/
theorem clipboard_tiles_triangle :
    let stone : Entry := .ofBlock (.ofName "minecraft:stone")
    let s : Region Float := ⟨0, .polygon (.make [⟨0, 0⟩, ⟨4, 0⟩, ⟨0, 4⟩] 0 1)⟩
    let r : Region Float := .ofBox .cuboid 0 ⟨⟨100, -3, -20⟩, ⟨110, 3, 0⟩⟩
    let fresh : Session Float := .new .standard
    let ws : Workspace Float :=
      { session := { fresh with region := some s }
        canvas := .blank
        world := (World.empty.write ⟨0, ⟨1, 0, 1⟩⟩ stone .quiet).1
        sampling := ⟨.empty, .ofList []⟩ }
    let tools : EditTools := ⟨.withSeed .flat 0, .standard⟩
    let copied := (ws.copy ⟨2, 5, 2⟩).1
    let scene : Scene Float := ⟨.withSeed .flat 0, .standard, some copied.session.clipboard, some r⟩
    let vars : Variables := .ofPosition .zero r.box
    ws.session.region = some s ∧ s.Reached ∧ ws.world.Made ∧ (⟨-1, 0, 7⟩ : Pos).InWorld ∧
      (∃ pattern, Pattern.parse "#clipboard -1,0,7" = .ok pattern ∧
        pattern.sample scene vars ⟨97, -1, -21⟩ = pure (some stone) ∧
        pattern.sample scene vars ⟨100, -3, -23⟩ = pure none) ∧
      ∃ pattern, Pattern.parse "#clipboard" = .ok pattern ∧
        ∀ t, (copied.fill tools pattern).1.world.get t = ws.world.get t := by
  intro stone s r fresh ws tools copied scene vars
  have hs : ws.session.region = some s := rfl
  have hreached : s.Reached :=
    .setVice ⟨0, 0, 4⟩ (.setVice ⟨4, 1, 0⟩ (.ofPoint .polygon 0 .zero) rfl) rfl
  have hw : ws.world.Made := .write _ _ _ .empty
  have ho : (⟨-1, 0, 7⟩ : Pos).InWorld := by constructor <;> unfold Narrow <;> decide
  have hstone : ws.world.get ⟨0, ⟨1, 0, 1⟩⟩ = stone := by
    show (World.empty.write ⟨0, ⟨1, 0, 1⟩⟩ stone .quiet).1.get _ = _
    rw [World.write_free World.Made.empty.free, World.get_put, if_pos rfl]
    rfl
  obtain ⟨htiles, pattern', hparse', hfill, -⟩ := clipboard_tiles tools hs hreached hw ⟨2, 5, 2⟩
  obtain ⟨pattern, hparse, hsample⟩ := htiles ⟨-1, 0, 7⟩ ho
  have htext : Pattern.clipboardAt ⟨-1, 0, 7⟩ = "#clipboard -1,0,7" := by decide
  refine ⟨hs, hreached, hw, ho, ⟨pattern, htext ▸ hparse, ?_, ?_⟩, pattern', hparse', hfill⟩
  · have hplace : s.box.min + (⟨97, -1, -21⟩ - r.box.min + ⟨-1, 0, 7⟩ : Pos).residue s.box.dims =
        ⟨1, 0, 1⟩ := by decide
    have htile : s.tile ws.world (⟨97, -1, -21⟩ - r.box.min + ⟨-1, 0, 7⟩) = some stone := by
      unfold Region.tile
      dsimp only
      rw [hplace, if_pos (by decide)]
      exact congrArg some hstone
    rw [← htile]
    exact (hsample _ _ r vars _).1
  · have hplace : s.box.min + (⟨100, -3, -23⟩ - r.box.min + ⟨-1, 0, 7⟩ : Pos).residue s.box.dims =
        ⟨4, 0, 4⟩ := by decide
    have htile : s.tile ws.world (⟨100, -3, -23⟩ - r.box.min + ⟨-1, 0, 7⟩) = none := by
      unfold Region.tile
      dsimp only
      rw [hplace, if_neg (by decide)]
    rw [← htile]
    exact (hsample _ _ r vars _).1

end Workspace

end VoxelEdit
