import VoxelEdit.Proofs.DoubleRadius
import VoxelEdit.Proofs.SessionReach
import VoxelEdit.Proofs.Timeline

/-!
# Selections stay consistent

A selection is spread over four fields that a dozen operations change: two markers, a region and
the remembered kind. `Selection.Consistent` is what ties them together: a marker lies in the
dimension of a region that is there, and the remembered kind is the kind of the region.

* `SessionOp.consistent`, `Workspace.call_consistent`: **every operation of a session and every
  edit keeps a consistent selection consistent.**
* `Session.reload_consistent`: so does saving and loading, as long as texts and lists are not too
  long for the stored form. Numbers that the stored form cannot hold are cut; the region and its
  markers are cut alike.
* `Workspace.Reached`: the workspaces that a player can have. `Workspace.Reached.consistent`:
  **their selections are consistent.**
-/

namespace VoxelEdit

open Number Nbt

/-! ## Kinds and dimensions -/

namespace Shape

variable {R : Type} [Radius R]

@[simp]
theorem ofPoint_kind (k : RegionKind) (p : Pos) : (ofPoint k p : Shape R).kind = k := by
  cases k <;> rfl

@[simp]
theorem ofBox_kind (k : RegionKind) (b : Box) : (ofBox k b : Shape R).kind = k := by
  cases k <;> rfl

@[simp]
theorem setMain_kind (s : Shape R) (p : Pos) : (s.setMain p).kind = s.kind := by
  cases s with
  | cuboid c => rfl
  | expand e => exact ofPoint_kind .expand p
  | sphere s => exact ofPoint_kind .sphere p
  | polygon g => exact ofPoint_kind .polygon p
  | convex c => exact ofPoint_kind .convex p

@[simp]
theorem shift_kind (s : Shape R) (d : Pos) : (s.shift d).kind = s.kind := by
  cases s <;> rfl

omit [Radius R] in
/-- What is made by a constructor has its kind, unless it is refused. -/
theorem kind_of_map {α : Type} {x : Option α} (make : α → Shape R) {k : RegionKind} {t : Shape R}
    (hmake : ∀ a, (make a).kind = k) (h : x.map make = some t) : t.kind = k := by
  obtain ⟨a, -, rfl⟩ := Option.map_eq_some_iff.1 h
  exact hmake a

theorem setVice?_kind {s t : Shape R} {p : Pos} (h : s.setVice? p = some t) : t.kind = s.kind := by
  cases s with
  | cuboid c => exact Option.some.inj h ▸ rfl
  | expand e => exact Option.some.inj h ▸ rfl
  | sphere s => exact kind_of_map .sphere (fun _ => rfl) h
  | polygon g => exact kind_of_map .polygon (fun _ => rfl) h
  | convex c => exact kind_of_map .convex (fun _ => rfl) h

theorem resize?_kind {s t : Shape R} {op : Resize} {ds : List Pos} (h : s.resize? op ds = some t) :
    t.kind = s.kind := by
  cases s with
  | cuboid c => exact Option.some.inj h ▸ rfl
  | expand e => exact Option.some.inj h ▸ rfl
  | sphere s =>
    cases op with
    | expand => exact kind_of_map .sphere (fun _ => rfl) h
    | contract => exact kind_of_map .sphere (fun _ => rfl) h
  | polygon g => exact kind_of_map .polygon (fun _ => rfl) h
  | convex c => exact nomatch h

end Shape

theorem Region.setVice?_kept {R : Type} [Radius R] {r r' : Region R} {p : Pos}
    (h : r.setVice? p = some r') : r'.dim = r.dim ∧ r'.kind = r.kind := by
  obtain ⟨t, ht, rfl⟩ := Option.map_eq_some_iff.1 h
  exact ⟨rfl, Shape.setVice?_kind ht⟩

/-- **An operation on a region keeps its dimension and its kind.** -/
theorem ShapeOp.kept {R : Type} [StoredRadius R] {op : ShapeOp} {r r' : Region R}
    (h : op.apply r = some r') : r'.dim = r.dim ∧ r'.kind = r.kind := by
  cases op with
  | setMain p => exact Option.some.inj h ▸ ⟨rfl, Shape.setMain_kind r.shape p⟩
  | setVice p => exact Region.setVice?_kept h
  | resize op ds =>
    obtain ⟨t, ht, rfl⟩ := Option.map_eq_some_iff.1 h
    exact ⟨rfl, Shape.resize?_kind ht⟩
  | shift d => exact Option.some.inj h ▸ ⟨rfl, Shape.shift_kind r.shape d⟩

/-! ## Consistent selections -/

/-- A marker lies in the dimension of the region, which is there, and the hint is its kind. -/
structure Selection.Consistent {R : Type} (m : Selection R) : Prop where
  main : ∀ site, m.main = some site → ∃ r, m.region = some r ∧ r.dim = site.dim
  vice : ∀ site, m.vice = some site → ∃ r, m.region = some r ∧ r.dim = site.dim
  hint : ∀ r, m.region = some r → m.hint = some r.kind

namespace Selection.Consistent

variable {R : Type} {m : Selection R}

/-- A selection without markers. -/
theorem bare {config : PlayerConfig} {hint : Option RegionKind} {region : Option (Region R)}
    (h : ∀ r, region = some r → hint = some r.kind) :
    Consistent (⟨config, none, none, hint, region⟩ : Selection R) where
  main _ h := nomatch h
  vice _ h := nomatch h
  hint := h

/-- A marker is put into the dimension of the region, or removed. -/
theorem withSite (hm : m.Consistent) (hand : Hand) (site : Option Site)
    (h : ∀ t, site = some t → ∃ r, m.region = some r ∧ r.dim = t.dim) :
    (m.withSite hand site).Consistent := by
  cases hand with
  | main => exact ⟨h, hm.vice, hm.hint⟩
  | off => exact ⟨hm.main, h, hm.hint⟩

/-- The region changes within its dimension and its kind. -/
theorem change {r r' : Region R} (hm : m.Consistent) (hr : m.region = some r)
    (hkept : r'.dim = r.dim ∧ r'.kind = r.kind) :
    Consistent { m with region := some r' } := by
  obtain ⟨hdim, hkind⟩ := hkept
  have hmarker {site : Site} (h : ∃ r, m.region = some r ∧ r.dim = site.dim) :
      ∃ r, some r' = some r ∧ r.dim = site.dim := by
    obtain ⟨r₀, hr₀, h⟩ := h
    have heq : r = r₀ := Option.some.inj (hr.symm.trans hr₀)
    exact ⟨r', rfl, hdim.trans (heq ▸ h)⟩
  refine ⟨fun site h => hmarker (hm.main site h), fun site h => hmarker (hm.vice site h), ?_⟩
  intro r₁ h
  rw [← Option.some.inj h, hkind]
  exact hm.hint r hr

/-- Nothing but the markers, the hint and the region matters. -/
theorem withConfig (hm : m.Consistent) (config : PlayerConfig) :
    Consistent { m with config } :=
  ⟨hm.main, hm.vice, hm.hint⟩

end Selection.Consistent

/-- A new session has nothing selected. -/
theorem Session.new_consistent {R : Type} (config : PlayerConfig) :
    (Session.new config : Session R).selection.Consistent :=
  .bare fun _ h => nomatch h

/-! ## Operations -/

namespace Stage

variable {R : Type} (st : Stage R)

theorem unmarkAll_selection : st.unmarkAll.session.selection =
    { st.session.selection with main := none, vice := none } := rfl

theorem unmark_selection (hand : Hand) :
    (st.unmark hand).session.selection = st.session.selection.withSite hand none := by
  cases hand <;> rfl

theorem setRegion_selection (r : Region R) : (st.setRegion r).session.selection =
    ⟨st.session.config, none, none, some r.kind, some r⟩ := by
  rw [setRegion, putRegion_selection]
  rfl

variable {st}

/-- A region that replaces the selection. -/
theorem setRegion_consistent (r : Region R) : (st.setRegion r).session.selection.Consistent := by
  rw [setRegion_selection]
  exact .bare fun _ h => congrArg (some ·.kind) (Option.some.inj h)

variable [Radius R]

/-- A started region has no markers and the kind that is remembered. -/
theorem startRegion_selection (hst : st.session.selection.Consistent) (site : Site) :
    (st.startRegion site).1.session.selection =
      ⟨st.session.config, none, none, some st.session.kind,
        some (.ofPoint st.session.kind site.dim site.pos)⟩ := by
  unfold startRegion
  dsimp only
  cases hr : st.session.region with
  | some r => rfl
  | none =>
    -- without a region there was no marker to begin with
    have hnone {m : Option Site} (h : ∀ t, m = some t → ∃ r, st.session.region = some r ∧
        r.dim = t.dim) : m = none := by
      refine Option.eq_none_iff_forall_not_mem.2 fun t ht => ?_
      obtain ⟨r, hr', -⟩ := h t ht
      exact nomatch hr.symm.trans hr'
    have hmain : st.session.mainSite = none := hnone hst.main
    have hvice : st.session.viceSite = none := hnone hst.vice
    exact congrArg₂ (fun main vice => (⟨st.session.config, main, vice, some st.session.kind,
      some (.ofPoint st.session.kind site.dim site.pos)⟩ : Selection R)) hmain hvice

/-- **The region to work on at a site** lies in its dimension, and the selection with it is
consistent. -/
theorem ensureRegion_consistent (hst : st.session.selection.Consistent) (site : Site) :
    (st.ensureRegion site).1.session.selection.Consistent ∧
      (st.ensureRegion site).2.dim = site.dim := by
  rcases st.ensureRegion_cases site with ⟨hhas, hr, h⟩ | ⟨-, h⟩
  · have hdim : (st.ensureRegion site).2.dim = site.dim := by
      simpa [Session.hasRegionAt, hr] using hhas
    rw [h]
    exact ⟨hst, hdim⟩
  · rw [h]
    refine ⟨?_, rfl⟩
    rw [startRegion_selection hst]
    refine .bare fun r hr => ?_
    rw [← Option.some.inj hr]
    exact congrArg some (Shape.ofPoint_kind st.session.kind site.pos).symm

end Stage

namespace SessionOp

variable {R : Type} [StoredRadius R] {st : Stage R}

theorem setMain_consistent (hst : st.session.selection.Consistent) (site : Site) :
    (st.setMain site).1.session.selection.Consistent := by
  obtain ⟨hensure, hdim⟩ := Stage.ensureRegion_consistent hst site
  have hregion := st.ensureRegion_region site
  have hkept : ((st.ensureRegion site).2.setMain site.pos).dim = (st.ensureRegion site).2.dim ∧
      ((st.ensureRegion site).2.setMain site.pos).kind = (st.ensureRegion site).2.kind :=
    ⟨rfl, Shape.setMain_kind _ site.pos⟩
  -- the marker is put where the region is
  have hmark : ((st.ensureRegion site).1.mark .main site).session.selection.Consistent := by
    rw [Stage.mark_selection]
    refine hensure.withSite .main (some site) fun t ht => ?_
    exact ⟨_, hregion, Option.some.inj ht ▸ hdim⟩
  have hmarkRegion : ((st.ensureRegion site).1.mark .main site).session.selection.region =
      some (st.ensureRegion site).2 := by
    rw [Stage.mark_selection]
    exact hregion
  unfold Stage.setMain
  dsimp only
  rw [Stage.putRegion_selection]
  by_cases hdrops : ((st.ensureRegion site).2.setMain site.pos).dropsVice = true
  · rw [if_pos hdrops, Stage.unmark_selection]
    exact (hmark.withSite .off none fun _ h => nomatch h).change hmarkRegion hkept
  · rw [if_neg hdrops]
    exact hmark.change hmarkRegion hkept

theorem setVice_consistent (hst : st.session.selection.Consistent) (site : Site) :
    (st.setVice site).1.session.selection.Consistent := by
  obtain ⟨hensure, hdim⟩ := Stage.ensureRegion_consistent hst site
  have hregion := st.ensureRegion_region site
  rcases st.setVice_cases site with ⟨-, h⟩ | ⟨r, hr, h⟩
  · rw [h]
    exact hensure
  · rw [h, Stage.putRegion_selection, Stage.mark_selection]
    have hmark := hensure.withSite .off (some site) fun t ht =>
      ⟨_, hregion, Option.some.inj ht ▸ hdim⟩
    have hkept : r.dim = (st.ensureRegion site).2.dim ∧ r.kind = (st.ensureRegion site).2.kind :=
      Region.setVice?_kept hr
    exact hmark.change hregion hkept

theorem setKind_consistent (hst : st.session.selection.Consistent) (kind : RegionKind) :
    (st.setKind kind).session.selection.Consistent := by
  rcases st.setKind_cases kind with ⟨hsame, h⟩ | ⟨r, -, -, h⟩
  · rw [h]
    refine ⟨hst.main, hst.vice, fun r hr => ?_⟩
    -- the region that stays is already of this kind
    have hkind : r.kind = kind := by
      have hr' : st.session.region = some r := hr
      simpa [hr'] using hsame
    exact congrArg some hkind.symm
  · rw [h, Stage.putRegion_selection, Stage.unmarkAll_selection]
    refine .bare fun r' hr' => ?_
    rw [← Option.some.inj hr']
    exact congrArg some (Shape.ofBox_kind kind r.box).symm

/-- **Operations keep selections consistent.** -/
theorem consistent (op : SessionOp R) (hst : st.session.selection.Consistent) :
    (op.apply st).session.selection.Consistent := by
  cases op with
  | setConfig config => exact hst.withConfig config
  | ensureRegion site => exact (Stage.ensureRegion_consistent hst site).1
  | setMain site => exact setMain_consistent hst site
  | setVice site => exact setVice_consistent hst site
  | setKind kind => exact setKind_consistent hst kind
  | modifyRegion op =>
    rcases st.modifyRegion_cases op.apply with h | ⟨r, r', hr, hr', h⟩
    · rw [apply, h]
      exact hst
    · rw [apply, h, Stage.putRegion_selection]
      exact hst.change hr (ShapeOp.kept hr')
  | setRegion r => exact Stage.setRegion_consistent r
  | clearRegion =>
    refine .bare fun site hmain => ?_
    cases hmain
  | setOverlay overlay =>
    rw [apply, Stage.setOverlay_selection]
    exact hst
  | markDirty | setClipboard clipboard | setHistory history | setMask mask | setMode mode =>
    exact hst

end SessionOp

/-! ## Edits -/

namespace Workspace

variable {R : Type} [Radius R] (tools : EditTools) (ws : Workspace R)

omit [Radius R] in
theorem perform_selection (dim : Int) (plan : Sampling Plan) :
    (ws.perform dim plan).1.session.selection = ws.session.selection := by
  unfold perform
  split <;> rfl

theorem copy_selection (player : Pos) :
    (ws.copy player).1.session.selection = ws.session.selection := by
  unfold copy
  split <;> rfl

omit [Radius R] in
theorem restored_selection (result : Option (Nat × History × World)) (error : EditError) :
    (ws.restored result error).1.session.selection = ws.session.selection := by
  unfold restored
  split <;> rfl

/-- **What a call does to the selection**: it keeps it, or a paste selects a box anew. -/
theorem call_selection (c : Call) :
    (ws.call tools c).1.session.selection = ws.session.selection ∨
      ∃ ws' dim b, (ws.call tools c).1 = select ws' dim b := by
  cases c with
  | fill pattern =>
    refine .inl ?_
    rw [call, fill]
    split
    · rfl
    · exact perform_selection _ _ _
  | replace wanted pattern =>
    refine .inl ?_
    rw [call, replace]
    split
    · rfl
    · exact perform_selection _ _ _
  | copy player => exact .inl (ws.copy_selection player)
  | cut player =>
    refine .inl ?_
    rw [call, cut]
    split
    · rfl
    · exact ws.copy_selection player
  | paste site options =>
    rw [call, paste]
    dsimp only
    split
    · exact .inl rfl
    split
    · exact .inr ⟨ws, _, _, rfl⟩
    have hperform := ws.perform_selection site.dim (Plan.ofClipboard tools.functions
      ws.session.mask ws.session.clipboard options.skipAir
      (ws.session.clipboard.anchor site.pos options.atOrigin))
    split
    · rename_i ws' e heq
      rw [heq] at hperform
      exact .inl hperform
    · rename_i ws' n heq
      rw [heq] at hperform
      by_cases hselect : options.select = true
      · rw [if_pos hselect]
        exact .inr ⟨ws', _, _, rfl⟩
      · rw [if_neg hselect]
        exact .inl hperform
  | undo => exact .inl (ws.restored_selection _ _)
  | redo => exact .inl (ws.restored_selection _ _)

variable {ws}

/-- **Edits keep selections consistent.** -/
theorem call_consistent (h : ws.session.selection.Consistent) (c : Call) :
    (ws.call tools c).1.session.selection.Consistent := by
  rcases ws.call_selection tools c with hkept | ⟨ws', dim, b, hselect⟩
  · rw [hkept]
    exact h
  · rw [hselect]
    exact Stage.setRegion_consistent _

end Workspace

/-! ## Saving and loading -/

/-- A site is read back with its dimension cut to 32 bits. -/
theorem Site.ofTag?_toTag_cut (s : Site) :
    ∃ p, Site.ofTag? s.toTag = .ok ⟨(Int32.ofInt s.dim).toInt, p⟩ := by
  have hdim : (Fields.ofList [("dim", Tag.ofInt s.dim), ("pos", s.pos.toTag)]).get? "dim" =
      some (.ofInt s.dim) := Fields.get?_ofList _ _
  have hpos : (Fields.ofList [("dim", Tag.ofInt s.dim), ("pos", s.pos.toTag)]).get? "pos" =
      some s.pos.toTag := Fields.get?_ofList _ _
  unfold Site.ofTag? Site.toTag Fields.int?
  dsimp only
  rw [hdim, hpos]
  exact ⟨_, rfl⟩

namespace Region

variable {R : Type} [StoredRadius R] {fields : Fields}

/-- A number is read back cut to 32 bits. -/
theorem intField_cut {name : String} {v : Int} (h : fields.get? name = some (.ofInt v)) :
    intField fields name = .ok (Int32.ofInt v).toInt := by
  unfold intField
  rw [tagField_eq h]
  rfl

/-- The shape that is read has the kind that is asked for. -/
theorem shapeOf_kind {kind : RegionKind} {shape : Shape R} (h : shapeOf kind fields = .ok shape) :
    shape.kind = kind := by
  cases kind with
  | cuboid =>
    obtain ⟨c, -, h⟩ := bind_eq_ok h
    exact Except.ok.inj h ▸ rfl
  | expand =>
    obtain ⟨b, -, h⟩ := bind_eq_ok h
    exact Except.ok.inj h ▸ rfl
  | sphere =>
    obtain ⟨s, -, h⟩ := bind_eq_ok h
    exact Except.ok.inj h ▸ rfl
  | polygon =>
    obtain ⟨g, -, h⟩ := bind_eq_ok h
    exact Except.ok.inj h ▸ rfl
  | convex =>
    obtain ⟨c, -, h⟩ := bind_eq_ok h
    exact Except.ok.inj h ▸ rfl

/-- **A region that is read back** has its kind, and its dimension cut to 32 bits. -/
theorem ofFields?_toFields_cut {r r' : Region R} (h : ofFields? r.toFields = .ok r') :
    r'.dim = (Int32.ofInt r.dim).toInt ∧ r'.kind = r.kind := by
  have htype : r.toFields.get? "type" = some (.ofInt r.kind.id) :=
    get?_toFields (r := r) (x := ("type", .ofInt r.kind.id)) (by simp [written])
  have hdim : r.toFields.get? "dim" = some (.ofInt r.dim) :=
    get?_toFields (r := r) (x := ("dim", .ofInt r.dim)) (by simp [written])
  unfold ofFields? at h
  rw [intField_eq htype (kind_narrow _), ok_bind, ofId?_id] at h
  dsimp only at h
  rw [intField_cut hdim, ok_bind] at h
  obtain ⟨shape, hshape, h⟩ := bind_eq_ok h
  rw [← Except.ok.inj h]
  exact ⟨rfl, shapeOf_kind hshape⟩

end Region

namespace Session

variable {R : Type} [StoredRadius R] {s s' : Session R}

/-- The stored form can hold a session: its texts and lists are as long as their length fields can
say. Numbers are cut to the width of their tags. -/
def FitsBlob (s : Session R) : Prop := (Tag.compound s.toFields).Fits

/-- A marker is read back with its dimension cut to 32 bits. -/
theorem markerOf_cut {name : String} {site : Option Site} {m : Option Marker}
    (hname : s.toFields.get? name = site.map Site.toTag) (h : markerOf s.toFields name = .ok m)
    {t : Site} (ht : m.map Marker.site = some t) :
    ∃ t₀, site = some t₀ ∧ t.dim = (Int32.ofInt t₀.dim).toInt := by
  unfold markerOf at h
  rw [hname] at h
  cases site with
  | none =>
    rw [← Except.ok.inj h] at ht
    exact nomatch ht
  | some t₀ =>
    obtain ⟨p, hp⟩ := t₀.ofTag?_toTag_cut
    rw [Option.map_some] at h
    dsimp only at h
    rw [hp] at h
    rw [← Except.ok.inj h] at ht
    exact ⟨t₀, rfl, Option.some.inj ht ▸ rfl⟩

/-- There is a region that is read back where there was one, and only there. -/
theorem regionOf_cut {region : Option (Region R)} (h : regionOf s.toFields = .ok region) :
    s.region = none ∧ region = none ∨ ∃ r r', s.region = some r ∧ region = some r' ∧
      r'.dim = (Int32.ofInt r.dim).toInt ∧ r'.kind = r.kind := by
  obtain ⟨-, -, -, -, hfield⟩ := s.get?_toFields
  unfold regionOf at h
  rw [hfield] at h
  cases hr : s.region with
  | none =>
    rw [hr] at h
    exact .inl ⟨rfl, (Except.ok.inj h).symm⟩
  | some r =>
    rw [hr, Option.map_some] at h
    dsimp only at h
    split at h
    · rename_i r' hr'
      exact .inr ⟨r, r', rfl, (Except.ok.inj h).symm, Region.ofFields?_toFields_cut hr'⟩
    · exact nomatch h

/-- What is read from the fields of a consistent selection is consistent. -/
theorem ofFields?_consistent (hs : s.selection.Consistent) {defaults : PlayerConfig}
    (h : ofFields? s.toFields defaults = .ok s') : s'.selection.Consistent := by
  obtain ⟨-, hmainField, hviceField, -, -⟩ := s.get?_toFields
  obtain ⟨config, -, h⟩ := bind_eq_ok h
  obtain ⟨main, hmain, h⟩ := bind_eq_ok h
  obtain ⟨vice, hvice, h⟩ := bind_eq_ok h
  obtain ⟨hint, hhint, h⟩ := bind_eq_ok h
  obtain ⟨region, hregion, h⟩ := bind_eq_ok h
  rw [hintOf_eq] at hhint
  -- the region of a marker is read back, and both dimensions are cut alike
  have hmarker {t t₀ : Site} (hdim : t.dim = (Int32.ofInt t₀.dim).toInt)
      (h₀ : ∃ r, s.region = some r ∧ r.dim = t₀.dim) : ∃ r, region = some r ∧ r.dim = t.dim := by
    obtain ⟨r₀, hr₀, hdim₀⟩ := h₀
    rcases regionOf_cut hregion with ⟨hnone, -⟩ | ⟨r, r', hr, hr', hcut, -⟩
    · exact nomatch hr₀.symm.trans hnone
    · have heq : r₀ = r := Option.some.inj (hr₀.symm.trans hr)
      exact ⟨r', hr', by rw [hcut, hdim, ← hdim₀, heq]⟩
  rw [← Except.ok.inj h]
  refine ⟨fun t ht => ?_, fun t ht => ?_, fun r hr => ?_⟩
  · obtain ⟨t₀, ht₀, hdim⟩ := markerOf_cut hmainField hmain ht
    exact hmarker hdim (hs.main t₀ ht₀)
  · obtain ⟨t₀, ht₀, hdim⟩ := markerOf_cut hviceField hvice ht
    exact hmarker hdim (hs.vice t₀ ht₀)
  · rcases regionOf_cut hregion with ⟨-, hnone⟩ | ⟨r₀, r', hr₀, hr', -, hkind⟩
    · exact nomatch hnone.symm.trans hr
    · have heq : r = r' := Option.some.inj (hr.symm.trans hr')
      show hint = some r.kind
      rw [← Except.ok.inj hhint, heq, hkind]
      exact hs.hint r₀ hr₀

/-- **Saving and loading keeps a selection consistent.** -/
theorem reload_consistent (hs : s.selection.Consistent) (hfits : s.FitsBlob) {bs : List UInt8}
    (hbs : s.encode? = some bs) {defaults : PlayerConfig} (h : decode? bs defaults = .ok s') :
    s'.selection.Consistent := by
  obtain ⟨hsorted, hfields⟩ := hfits
  have hroot : ShortText "" := by decide +kernel
  obtain ⟨bs', hbs', hread⟩ := ofFile?_file? hroot hsorted hfields
  have heq : bs' = bs := Option.some.inj (hbs'.symm.trans hbs)
  unfold decode? at h
  rw [← heq, hread] at h
  exact ofFields?_consistent hs h

end Session

/-! ## Everything that a player can do -/

namespace Workspace

variable {R : Type} [StoredRadius R]

/-- The workspaces that a player can have: a new session, any operations of it and any edits,
saved and loaded any number of times, with any defaults and over any canvas. -/
inductive Reached : Workspace R → Prop
  | new (config : PlayerConfig) (canvas : Canvas R) (world : World) (sampling : SampleState) :
      Reached ⟨⟨.new config, canvas⟩, world, sampling⟩
  | operate {ws : Workspace R} (op : SessionOp R) :
      Reached ws → Reached { ws with toStage := op.apply ws.toStage }
  | call {ws : Workspace R} (tools : EditTools) (c : Call) :
      Reached ws → Reached (ws.call tools c).1
  | reload {ws : Workspace R} {bs : List UInt8} {defaults : PlayerConfig} {session : Session R}
      (canvas : Canvas R) : Reached ws → ws.session.FitsBlob → ws.session.encode? = some bs →
      Session.decode? bs defaults = .ok session → Reached { ws with session, canvas }

/-- The selection of whatever is reached is consistent. -/
theorem Reached.selection_consistent {ws : Workspace R} (h : ws.Reached) :
    ws.session.selection.Consistent := by
  induction h with
  | new config canvas world sampling => exact Session.new_consistent config
  | operate op _ ih => exact op.consistent ih
  | call tools c _ ih => exact call_consistent tools ih c
  | reload canvas _ hfits hbs hread ih => exact Session.reload_consistent ih hfits hbs hread

/-- **The parts of a selection agree, whatever a player does.** Where a main or a vice position is
marked there is a region, and it lies in the dimension of the marker; where there is a region, its
kind is the one that is remembered. -/
theorem Reached.markers_in_region {ws : Workspace R} (h : ws.Reached) :
    (∀ site, ws.session.mainSite = some site ∨ ws.session.viceSite = some site →
      ∃ r, ws.session.region = some r ∧ r.dim = site.dim) ∧
    ∀ r, ws.session.region = some r → ws.session.hint = some r.kind := by
  have hconsistent := h.selection_consistent
  refine ⟨fun site hsite => ?_, hconsistent.hint⟩
  rcases hsite with hmain | hvice
  · exact hconsistent.main site hmain
  · exact hconsistent.vice site hvice

/-- A corner is picked, the session is saved and loaded, and the other corner is picked. -/
theorem Reached.markers_in_region_loaded :
    let picked : Stage Float := (SessionOp.setMain ⟨0, ⟨1, 2, 3⟩⟩).apply ⟨.new .standard, .blank⟩
    let loaded : Stage Float := ⟨.ofSelection picked.session.selection, .blank⟩
    let ws : Workspace Float :=
      { toStage := (SessionOp.setVice ⟨0, ⟨4, 5, 6⟩⟩).apply loaded
        world := .empty
        sampling := ⟨.empty, .ofList []⟩ }
    ws.Reached ∧ ws.session.mainSite = some ⟨0, ⟨1, 2, 3⟩⟩ ∧
      ws.session.viceSite = some ⟨0, ⟨4, 5, 6⟩⟩ ∧
      (∀ site, ws.session.mainSite = some site ∨ ws.session.viceSite = some site →
        ∃ r, ws.session.region = some r ∧ r.dim = site.dim) ∧
      ∀ r, ws.session.region = some r → ws.session.hint = some r.kind := by
  intro picked loaded ws
  have hwand : ShortText PlayerConfig.standard.wand := by decide +kernel
  have hdim : Narrow 0 := by unfold Narrow; decide
  have hp : (⟨1, 2, 3⟩ : Pos).InWorld := by constructor <;> unfold Narrow <;> decide
  have hstorable : picked.session.selection.Storable :=
    SessionOp.storable (Session.new_storable hwand) trivial
      (Selection.corners_inRange hwand hdim hp hp fun _ h => nomatch h)
  obtain ⟨bs, hbs, hread⟩ := Session.decode?_encode? hstorable ⟨by decide, by decide⟩
  have hnew : Reached (⟨⟨.new .standard, .blank⟩, .empty, ⟨.empty, .ofList []⟩⟩ : Workspace Float) :=
    .new _ _ _ _
  have hpicked := hnew.operate (.setMain ⟨0, ⟨1, 2, 3⟩⟩)
  have hloaded := hpicked.reload .blank
    (Session.toFields_fits hstorable.toInRange hstorable.filled) hbs (hread .standard)
  have hws : ws.Reached := hloaded.operate (.setVice ⟨0, ⟨4, 5, 6⟩⟩)
  exact ⟨hws, rfl, rfl, markers_in_region hws⟩

end Workspace

end VoxelEdit
