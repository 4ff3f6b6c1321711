import VoxelEdit.Proofs.StoredSession

/-!
# The sessions that a player can have

* `Region.Made`: the regions that the program makes. All of them are fit (`Region.Made.fit`).
* `SessionOp`: the operations of a session. `SessionOp.region_keeps`: what has to be shown for a
  property of regions that they keep. `SessionOp.storable`: they lead from storable selections to
  storable ones, as long as numbers stay in range. `SessionOp.kept`: a session that has nothing
  to save after an operation had nothing to save before it and has the same selection.
-/

namespace VoxelEdit

open Number Nbt

/-! ## Regions -/

/-- A box in the world has extents that 32 bits hold. -/
theorem Box.dims_range {b : Box} (hb : b.Ordered) (hw : b.InWorld) :
    0 ≤ b.dims.sum ∧ b.dims.sum ≤ 3 * (maxWord32 + 1) := by
  obtain ⟨⟨⟨hx, -⟩, ⟨hy, -⟩, ⟨hz, -⟩⟩, ⟨⟨-, hx'⟩, ⟨-, hy'⟩, ⟨-, hz'⟩⟩⟩ := hw
  have := hb.x
  have := hb.y
  have := hb.z
  simp only [minInt32, maxInt32] at *
  simp only [Box.dims, Pos.sum, Pos.sub_x, Pos.sub_y, Pos.sub_z, Pos.add_x, Pos.add_y, Pos.add_z,
    Pos.splat, maxWord32]
  omega

/-- One operation on a region. -/
inductive ShapeOp where
  | setMain (p : Pos)
  | setVice (p : Pos)
  | resize (op : Resize) (changes : List Pos)
  | shift (d : Pos)

namespace ShapeOp

variable {R : Type} [StoredRadius R]

/-- The region that an operation makes, unless it is refused. -/
def apply : ShapeOp → Region R → Option (Region R)
  | .setMain p, r => some (r.setMain p)
  | .setVice p, r => r.setVice? p
  | .resize op ds, r => r.resize? op ds
  | .shift d, r => some (r.shift d)

/-- What an operation asks: a sphere is resized by changes that 32 bits hold. -/
def Takes : ShapeOp → Region R → Prop
  | .resize _ ds, r => r.shape.Takes ds
  | _, _ => True

theorem fit {op : ShapeOp} {r r' : Region R} (hr : r.Fit) (hop : op.Takes r)
    (h : op.apply r = some r') : r'.Fit := by
  cases op with
  | setMain p => exact Option.some.inj h ▸ r.setMain_fit p
  | setVice p => exact hr.setVice h
  | resize op ds => exact hr.resize hop h
  | shift d => exact Option.some.inj h ▸ hr.shift d

end ShapeOp

namespace Region

variable {R : Type} [StoredRadius R]

theorem Reached.apply {r r' : Region R} (hr : r.Reached) {op : ShapeOp} (h : op.apply r = some r') :
    r'.Reached := by
  cases op with
  | setMain p => exact Option.some.inj h ▸ .setMain p hr
  | setVice p => exact .setVice p hr h
  | resize op ds => exact .resize op ds hr h
  | shift d => exact Option.some.inj h ▸ .shift d hr

theorem ofBox_fit (k : RegionKind) (dim : Int) {b : Box} (hb : b.Ordered) (hw : b.InWorld) :
    (ofBox k dim b : Region R).Fit :=
  ⟨Shape.ofBox_sound k hb, Shape.ofBox_proper k (b.dims_range hb hw).1 (b.dims_range hb hw).2⟩

/-- The regions that the program makes: from a position, a box in the world or a stored region, by
any operations. -/
inductive Made : Region R → Prop
  | ofPoint (k : RegionKind) (dim : Int) (p : Pos) : Made (ofPoint k dim p)
  | ofBox (k : RegionKind) (dim : Int) {b : Box} (hb : b.Ordered) (hw : b.InWorld) :
      Made (ofBox k dim b)
  | ofFields (fields : Fields) {r : Region R} (h : ofFields? fields = .ok r) : Made r
  | change (op : ShapeOp) {r r' : Region R} : Made r → op.Takes r → op.apply r = some r' → Made r'

theorem Made.fit {r : Region R} (hr : r.Made) : r.Fit := by
  induction hr with
  | ofPoint k dim p => exact ofPoint_fit k dim p
  | ofBox k dim hb hw => exact ofBox_fit k dim hb hw
  | ofFields fields h => exact fit_of_ofFields? h
  | change op _ hop h ih => exact ShapeOp.fit ih hop h

end Region

/-! ## Stages -/

/-- The selection with another site of a hand. -/
def Selection.withSite {R : Type} (m : Selection R) (hand : Hand) (site : Option Site) :
    Selection R :=
  match hand with
  | .main => { m with main := site }
  | .off => { m with vice := site }

/-- Whether there is a region in the dimension of a site. -/
def Session.hasRegionAt {R : Type} (s : Session R) (site : Site) : Bool :=
  s.region.any fun r => r.dim = site.dim

namespace Stage

variable {R : Type} (st : Stage R)

theorem drawMarker_session (hand : Hand) (site : Site) :
    (st.drawMarker hand site).1.session = st.session := by
  unfold drawMarker
  cases st.session.overlay <;> rfl

theorem mark_session (hand : Hand) (site : Site) : ∃ drawing, (st.mark hand site).session =
    (st.unmark hand).session.withMarker hand (some ⟨site, drawing⟩) := by
  refine ⟨((st.unmark hand).drawMarker hand site).2, ?_⟩
  exact congrArg (fun s : Session R => s.withMarker hand _) (drawMarker_session _ hand site)

@[simp]
theorem mark_selection (hand : Hand) (site : Site) :
    (st.mark hand site).session.selection = st.session.selection.withSite hand (some site) := by
  obtain ⟨drawing, h⟩ := st.mark_session hand site
  rw [h]
  cases hand <;> rfl

@[simp]
theorem mark_dirty (hand : Hand) (site : Site) :
    (st.mark hand site).session.dirty = st.session.dirty := by
  obtain ⟨drawing, h⟩ := st.mark_session hand site
  rw [h]
  cases hand <;> rfl

@[simp]
theorem redrawMarker_selection (hand : Hand) :
    (st.redrawMarker hand).session.selection = st.session.selection := by
  unfold redrawMarker
  cases h : st.session.marker hand with
  | none => rfl
  | some m =>
    -- the marker is put where it was
    rw [mark_selection]
    have hsite : (st.session.marker hand).map Marker.site = some m.site := by rw [h]; rfl
    cases hand
    · exact congrArg (fun main => { st.session.selection with main }) hsite.symm
    · exact congrArg (fun vice => { st.session.selection with vice }) hsite.symm

@[simp]
theorem redrawMarker_dirty (hand : Hand) :
    (st.redrawMarker hand).session.dirty = st.session.dirty := by
  unfold redrawMarker
  cases st.session.marker hand with
  | none => rfl
  | some m => exact st.mark_dirty hand m.site

theorem redraw_session : ∃ outline, st.redraw.session = { st.session with outline } := by
  unfold redraw
  dsimp only
  split
  · exact ⟨_, rfl⟩
  · exact ⟨_, rfl⟩

@[simp]
theorem redraw_selection : st.redraw.session.selection = st.session.selection := by
  obtain ⟨outline, h⟩ := st.redraw_session
  rw [h]
  rfl

@[simp]
theorem redraw_dirty : st.redraw.session.dirty = st.session.dirty := by
  obtain ⟨outline, h⟩ := st.redraw_session
  rw [h]

@[simp]
theorem setOverlay_selection (overlay : Option Colors) :
    (st.setOverlay overlay).session.selection = st.session.selection := by
  rw [setOverlay, redraw_selection, redrawMarker_selection, redrawMarker_selection]
  rfl

@[simp]
theorem setOverlay_dirty (overlay : Option Colors) :
    (st.setOverlay overlay).session.dirty = st.session.dirty := by
  rw [setOverlay, redraw_dirty, redrawMarker_dirty, redrawMarker_dirty]

@[simp]
theorem putRegion_selection (r : Region R) :
    (st.putRegion r).session.selection = { st.session.selection with region := some r } := by
  rw [putRegion, redraw_selection]
  rfl

@[simp]
theorem putRegion_dirty (r : Region R) : (st.putRegion r).session.dirty = true := by
  rw [putRegion, redraw_dirty]

theorem putRegion_region (r : Region R) : (st.putRegion r).session.region = some r :=
  congrArg Selection.region (st.putRegion_selection r)

/-- A change is refused, or the region is replaced. -/
theorem modifyRegion_cases (f : Region R → Option (Region R)) : st.modifyRegion f = (st, false) ∨
    ∃ r r', st.session.region = some r ∧ f r = some r' ∧
      st.modifyRegion f = (st.putRegion r', true) := by
  unfold modifyRegion
  split
  · exact .inl rfl
  · rename_i r' h
    obtain ⟨r, hr, hf⟩ := Option.bind_eq_some_iff.1 h
    exact .inr ⟨r, r', hr, hf, rfl⟩

section

variable [Radius R]

/-- The region to work on is the present one, and nothing happens, or it is started. -/
theorem ensureRegion_cases (site : Site) :
    st.session.hasRegionAt site = true ∧ st.session.region = some (st.ensureRegion site).2 ∧
        (st.ensureRegion site).1 = st ∨
      st.session.hasRegionAt site = false ∧ st.ensureRegion site = st.startRegion site := by
  unfold ensureRegion Session.hasRegionAt
  cases st.session.region with
  | none => exact .inr ⟨rfl, rfl⟩
  | some r =>
    dsimp only
    split
    · rename_i hdim
      exact .inl ⟨decide_eq_true hdim, rfl, rfl⟩
    · rename_i hdim
      exact .inr ⟨decide_eq_false hdim, rfl⟩

/-- The region to work on is there. -/
theorem ensureRegion_region (site : Site) :
    (st.ensureRegion site).1.session.region = some (st.ensureRegion site).2 := by
  rcases st.ensureRegion_cases site with ⟨-, hr, h⟩ | ⟨-, h⟩
  · rw [h, hr]
  · rw [h]
    rfl

/-- A vice position is refused, or it is marked and the region changes. -/
theorem setVice_cases (site : Site) :
    (st.ensureRegion site).2.setVice? site.pos = none ∧
        st.setVice site = ((st.ensureRegion site).1, false) ∨
      ∃ r, (st.ensureRegion site).2.setVice? site.pos = some r ∧
        st.setVice site = (((st.ensureRegion site).1.mark .off site).putRegion r, true) := by
  unfold setVice
  dsimp only
  split
  · rename_i h
    exact .inl ⟨h, rfl⟩
  · rename_i r h
    exact .inr ⟨r, h, rfl⟩

/-- A kind is only noted, or the region is made anew from its box. -/
theorem setKind_cases (kind : RegionKind) :
    (st.session.region.any fun r => r.kind ≠ kind) = false ∧
        st.setKind kind =
          { st with session := { st.session with hint := some kind, dirty := true } } ∨
      ∃ r, st.session.region = some r ∧ r.kind ≠ kind ∧
        st.setKind kind = (Stage.unmarkAll { st with
          session := { st.session with hint := some kind, dirty := true } }).putRegion
            (.ofBox kind r.dim r.box) := by
  unfold setKind
  dsimp only
  cases st.session.region with
  | none => exact .inl ⟨rfl, rfl⟩
  | some r =>
    dsimp only
    split
    · rename_i hkind
      exact .inl ⟨decide_eq_false (not_not.2 hkind), rfl⟩
    · rename_i hkind
      exact .inr ⟨r, rfl, hkind, rfl⟩

end

end Stage

/-- The selection of a new session is storable. -/
theorem Session.new_storable {R : Type} [StoredRadius R] {config : PlayerConfig}
    (h : ShortText config.wand) :
    (Session.new config : Session R).selection.Storable where
  wand := h
  main _ h := nomatch h
  vice _ h := nomatch h
  world _ h := nomatch h
  fit _ h := nomatch h

/-! ## Operations -/

/-- The operations of a session. The last five are about what is not stored. -/
inductive SessionOp (R : Type) where
  | setConfig (config : PlayerConfig)
  | ensureRegion (site : Site)
  | setMain (site : Site)
  | setVice (site : Site)
  | setKind (kind : RegionKind)
  | modifyRegion (op : ShapeOp)
  | setRegion (r : Region R)
  | clearRegion
  | markDirty
  | setOverlay (overlay : Option Colors)
  | setClipboard (clipboard : Clipboard)
  | setHistory (history : History)
  | setMask (mask : Option String)
  | setMode (mode : UpdateMode)

namespace SessionOp

variable {R : Type} [StoredRadius R]

/-- What an operation does to a session and its canvas. -/
def apply : SessionOp R → Stage R → Stage R
  | .setConfig config, st => { st with session := st.session.setConfig config }
  | .ensureRegion site, st => (st.ensureRegion site).1
  | .setMain site, st => (st.setMain site).1
  | .setVice site, st => (st.setVice site).1
  | .setKind kind, st => st.setKind kind
  | .modifyRegion op, st => (st.modifyRegion op.apply).1
  | .setRegion r, st => st.setRegion r
  | .clearRegion, st => st.clearRegion
  | .markDirty, st => { st with session := { st.session with dirty := true } }
  | .setOverlay overlay, st => st.setOverlay overlay
  | .setClipboard clipboard, st => { st with session := { st.session with clipboard } }
  | .setHistory history, st => { st with session := { st.session with history } }
  | .setMask mask, st => { st with session := st.session.setMask mask }
  | .setMode mode, st => { st with session := { st.session with mode } }

/-- What an operation asks: regions come from the program, and a sphere is resized by changes that
32 bits hold. -/
def Takes (st : Stage R) : SessionOp R → Prop
  | .modifyRegion op => ∀ r, st.session.region = some r → op.Takes r
  | .setRegion r => r.Made
  | _ => True

/-- **What an operation can do**: there is something to save, or nothing that is saved changes. -/
theorem kept (op : SessionOp R) (st : Stage R) : (op.apply st).session.dirty = true ∨
    (op.apply st).session.selection = st.session.selection ∧
      (op.apply st).session.dirty = st.session.dirty := by
  have hensure (site : Site) : (st.ensureRegion site).1.session.dirty = true ∨
      (st.ensureRegion site).1.session.selection = st.session.selection ∧
        (st.ensureRegion site).1.session.dirty = st.session.dirty := by
    rcases st.ensureRegion_cases site with ⟨-, -, h⟩ | ⟨-, h⟩
    · exact .inr (by rw [h]; exact ⟨rfl, rfl⟩)
    · exact .inl (by rw [h]; rfl)
  cases op with
  | setConfig config => exact .inl rfl
  | ensureRegion site => exact hensure site
  | setMain site => exact .inl (Stage.putRegion_dirty _ _)
  | setVice site =>
    rcases st.setVice_cases site with ⟨-, h⟩ | ⟨r, -, h⟩
    · rw [apply, h]
      exact hensure site
    · exact .inl (by rw [apply, h, Stage.putRegion_dirty])
  | setKind kind =>
    rcases st.setKind_cases kind with ⟨-, h⟩ | ⟨r, -, -, h⟩
    · exact .inl (by rw [apply, h])
    · exact .inl (by rw [apply, h, Stage.putRegion_dirty])
  | modifyRegion op =>
    rcases st.modifyRegion_cases op.apply with h | ⟨r, r', -, -, h⟩
    · exact .inr (by rw [apply, h]; exact ⟨rfl, rfl⟩)
    · exact .inl (by rw [apply, h, Stage.putRegion_dirty])
  | setRegion r => exact .inl (Stage.putRegion_dirty _ _)
  | clearRegion => exact .inl rfl
  | markDirty => exact .inl rfl
  | setOverlay overlay => exact .inr ⟨st.setOverlay_selection overlay, st.setOverlay_dirty overlay⟩
  | setClipboard clipboard => exact .inr ⟨rfl, rfl⟩
  | setHistory history => exact .inr ⟨rfl, rfl⟩
  | setMask mask => exact .inr ⟨rfl, rfl⟩
  | setMode mode => exact .inr ⟨rfl, rfl⟩

variable {st : Stage R}

/-- **A property of regions is kept by the operations of a session** if the region of one position
has it, picked positions keep it, and the box of the old region, its changes and a region that is
set lead to regions that have it. -/
theorem region_keeps {P : Region R → Prop} {op : SessionOp R}
    (point : ∀ k dim p, P (.ofPoint k dim p)) (main : ∀ r p, P r → P (r.setMain p))
    (vice : ∀ r r' p, P r → r.setVice? p = some r' → P r')
    (box : ∀ r k, st.session.region = some r → P r → P (.ofBox k r.dim r.box))
    (change : ∀ o, op = .modifyRegion o → ∀ r r', st.session.region = some r → P r →
      o.apply r = some r' → P r')
    (given : ∀ r, op = .setRegion r → P r) (hst : ∀ r, st.session.region = some r → P r) :
    ∀ r, (op.apply st).session.region = some r → P r := by
  have hput {st' : Stage R} {r' : Region R} (h : op.apply st = st'.putRegion r') (hr' : P r') :
      ∀ r, (op.apply st).session.region = some r → P r := by
    intro r hr
    rw [h, Stage.putRegion_region] at hr
    exact Option.some.inj hr ▸ hr'
  have hwork (site : Site) : P (st.ensureRegion site).2 := by
    rcases st.ensureRegion_cases site with ⟨-, hr, -⟩ | ⟨-, h⟩
    · exact hst _ hr
    · rw [h]
      exact point _ _ _
  have hensure (site : Site) : ∀ r, (st.ensureRegion site).1.session.region = some r → P r := by
    intro r hr
    rw [Stage.ensureRegion_region] at hr
    exact Option.some.inj hr ▸ hwork site
  -- most operations put a region; the others keep the one that is there
  cases op with
  | ensureRegion site => exact hensure site
  | setMain site => exact hput rfl (main _ site.pos (hwork site))
  | setVice site =>
    rcases st.setVice_cases site with ⟨-, h⟩ | ⟨r', hr', h⟩
    · rw [apply, h]
      exact hensure site
    · exact hput (congrArg Prod.fst h) (vice _ r' site.pos (hwork site) hr')
  | setKind kind =>
    rcases st.setKind_cases kind with ⟨-, h⟩ | ⟨r', hr', -, h⟩
    · rw [apply, h]
      exact hst
    · exact hput h (box r' kind hr' (hst r' hr'))
  | modifyRegion op =>
    rcases st.modifyRegion_cases op.apply with h | ⟨r, r', hr, hr', h⟩
    · rw [apply, h]
      exact hst
    · exact hput (congrArg Prod.fst h) (change op rfl r r' hr (hst r hr) hr')
  | setRegion r => exact hput rfl (given r rfl)
  | clearRegion => exact fun r hr => nomatch hr
  | setOverlay overlay =>
    have h : (st.setOverlay overlay).session.region = st.session.region :=
      congrArg Selection.region (st.setOverlay_selection overlay)
    rw [apply, h]
    exact hst
  | setConfig config | markDirty | setClipboard clipboard | setHistory history | setMask mask
  | setMode mode => exact hst

/-- **Operations lead from reached regions to reached regions**, whatever they change. -/
theorem reached {op : SessionOp R} (hst : ∀ r, st.session.region = some r → r.Reached)
    (hop : ∀ r, op = .setRegion r → r.Reached) :
    ∀ r, (op.apply st).session.region = some r → r.Reached :=
  region_keeps (fun k dim p => .ofPoint k dim p) (fun _ p hr => .setMain p hr)
    (fun _ _ p hr h => .setVice p hr h) (fun r k _ hr => .ofBox k r.dim hr.sound.ordered)
    (fun _ _ _ _ _ hr h => hr.apply h) hop hst

/-- **Operations lead from fit regions to fit regions.** -/
theorem fit {op : SessionOp R} (hst : ∀ r, st.session.region = some r → r.Fit)
    (hworld : ∀ r, st.session.region = some r → r.InWorld) (hop : op.Takes st) :
    ∀ r, (op.apply st).session.region = some r → r.Fit := by
  refine region_keeps Region.ofPoint_fit (fun r p _ => r.setMain_fit p)
    (fun _ _ _ hr h => hr.setVice h) ?_ ?_ ?_ hst
  · exact fun r k hr hfit => Region.ofBox_fit k r.dim hfit.sound.ordered (hworld r hr).shape.1
  · rintro o rfl r r' hr hfit h
    exact ShapeOp.fit hfit (hop r hr) h
  · rintro r rfl
    exact hop.fit

/-- **Operations lead from storable selections to storable ones**, as long as numbers stay in
range. -/
theorem storable {op : SessionOp R} (hst : st.session.selection.Storable) (hop : op.Takes st)
    (hrange : (op.apply st).session.selection.InRange) :
    (op.apply st).session.selection.Storable :=
  { hrange with fit := fit hst.fit hst.world hop }

end SessionOp

end VoxelEdit
