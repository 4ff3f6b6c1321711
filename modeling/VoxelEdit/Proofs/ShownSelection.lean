import VoxelEdit.Proofs.DoubleRadius
import VoxelEdit.Proofs.LiveDrawings

/-!
# The overlay shows the selection

* `Stage.Faithful`: the canvas shows the markers as they are, and given drawings for the region.
* `SessionOp.shows`: whether the region is drawn after an operation. A region that is started at a
  site is not, until something draws it anew; this is how a vice position that the new region
  refuses leaves a selection that no one sees.
* `Stage.Visited.drawings_exact`: **whatever was done with a session, what is live is one box for
  each marker and the outline of the region, unless the region was only started.** Nothing is live
  without an overlay, and nothing of a session is left when it ends.
* `Stage.started_region_hidden`: a region that was only started is not shown.
-/

namespace VoxelEdit

namespace Stage

variable {R : Type} {st : Stage R}

/-- The canvas shows the markers as they are, and `outline` for the region. -/
def Faithful (st : Stage R) (outline : List (Drawing R)) : Prop :=
  st.Shows st.session.markerDrawings outline

namespace Faithful

variable {outline : List (Drawing R)}

theorem unmark (h : st.Faithful outline) (hand : Hand) : (st.unmark hand).Faithful outline := by
  unfold Faithful
  rw [unmark_markerDrawings]
  exact Shows.unmark h hand

theorem unmarkAll (h : st.Faithful outline) : st.unmarkAll.Faithful outline :=
  (h.unmark .main).unmark .off

theorem mark (h : st.Faithful outline) (hand : Hand) (site : Site) :
    (st.mark hand site).Faithful outline := by
  unfold Faithful
  rw [mark_markerDrawings]
  exact Shows.mark h hand site

theorem eraseOutline (h : st.Faithful outline) : st.eraseOutline.Faithful [] :=
  Shows.eraseOutline h

theorem redraw (h : st.Faithful outline) :
    st.redraw.Faithful st.redraw.session.regionDrawings := by
  have hshows := Shows.redraw h
  obtain ⟨numbers, hsession⟩ := st.redraw_session
  unfold Faithful
  rw [hsession]
  exact hshows

theorem putRegion (h : st.Faithful outline) (r : Region R) :
    (st.putRegion r).Faithful (st.putRegion r).session.regionDrawings :=
  Faithful.redraw (h.congr rfl rfl rfl)

end Faithful

theorem redrawMarker_markerDrawings (hand : Hand) :
    (st.redrawMarker hand).session.markerDrawings = st.session.markerDrawings := by
  unfold redrawMarker
  cases hm : st.session.marker hand with
  | none => rfl
  | some m =>
    have hspot : st.session.markerDrawings hand = st.session.spot hand m.site := by
      rw [Session.markerDrawings, hm]
    rw [mark_markerDrawings, ← hspot, Function.update_eq_self]

/-- An overlay that comes or goes has everything drawn anew, whatever was shown before. -/
theorem Shows.setOverlay {marks : Hand → List (Drawing R)} {outline : List (Drawing R)}
    (h : st.Shows marks outline) (overlay : Option Colors) :
    (st.setOverlay overlay).Faithful (st.setOverlay overlay).session.regionDrawings := by
  let st₁ : Stage R := { st with session := { st.session with overlay } }
  have h₁ : st₁.Shows marks outline := h.congr rfl rfl rfl
  have h₂ := (h₁.redrawMarker .main).redrawMarker .off
  have hmarks : Function.update (Function.update marks .main (st₁.session.markerDrawings .main))
      .off ((st₁.redrawMarker .main).session.markerDrawings .off) =
        ((st₁.redrawMarker .main).redrawMarker .off).session.markerDrawings := by
    simp only [redrawMarker_markerDrawings]
    funext hand
    cases hand <;> rfl
  rw [hmarks] at h₂
  exact Faithful.redraw h₂

/-- Nothing is left of a session that ends. -/
theorem Shows.discard {marks : Hand → List (Drawing R)} {outline : List (Drawing R)}
    (h : st.Shows marks outline) : st.discard.drawings = [] :=
  (((h.unmark .main).unmark .off).eraseOutline.drawings).eq_nil

section

variable [Radius R]

theorem Faithful.startRegion {outline : List (Drawing R)} (h : st.Faithful outline)
    (site : Site) : (st.startRegion site).1.Faithful [] := by
  unfold Stage.startRegion
  dsimp only
  split
  · exact h.unmarkAll.eraseOutline.congr rfl rfl rfl
  · exact h.eraseOutline.congr rfl rfl rfl

theorem Faithful.ensureRegion {outline : List (Drawing R)} (h : st.Faithful outline)
    (site : Site) : (st.ensureRegion site).1.Faithful
      (if st.session.hasRegionAt site then outline else []) := by
  rcases st.ensureRegion_cases site with ⟨hat, -, hst⟩ | ⟨hat, hst⟩
  · rw [hat, hst]
    exact h
  · rw [hat, hst]
    exact h.startRegion site

theorem Faithful.setMain {outline : List (Drawing R)} (h : st.Faithful outline) (site : Site) :
    (st.setMain site).1.Faithful (st.setMain site).1.session.regionDrawings := by
  have hmain := (h.ensureRegion site).mark .main site
  have hmarks (drops : Bool) : Faithful
      (if drops then ((st.ensureRegion site).1.mark .main site).unmark .off
        else (st.ensureRegion site).1.mark .main site)
      (if st.session.hasRegionAt site then outline else []) := by
    cases drops
    · exact hmain
    · exact hmain.unmark .off
  exact (hmarks _).putRegion _

end

end Stage

/-! ## Operations -/

namespace SessionOp

variable {R : Type} [StoredRadius R]

/-- Whether the region is drawn after an operation, if it was `shown` before: one that is started
is not, and most operations that change the selection draw it anew. -/
def shows (st : Stage R) (shown : Bool) : SessionOp R → Bool
  | .ensureRegion site => shown && st.session.hasRegionAt site
  | .setVice site => (st.setVice site).2 || shown && st.session.hasRegionAt site
  | .setKind kind => (st.session.region.any fun r => r.kind ≠ kind) || shown
  | .modifyRegion op => (st.modifyRegion op.apply).2 || shown
  | .setMain _ | .setRegion _ | .clearRegion | .setOverlay _ => true
  | .setConfig _ | .markDirty | .setClipboard _ | .setHistory _ | .setMask _ | .setMode _ => shown

end SessionOp

/-- The canvas shows the markers, and the region if it is drawn. -/
def Stage.Displays {R : Type} (st : Stage R) (shown : Bool) : Prop :=
  st.Faithful (if shown then st.session.regionDrawings else [])

/-- **What an operation does to the canvas.** -/
theorem SessionOp.displays {R : Type} [StoredRadius R] {st : Stage R} {shown : Bool}
    (h : st.Displays shown) (op : SessionOp R) : (op.apply st).Displays (op.shows st shown) := by
  have hensure (site : Site) : (st.ensureRegion site).1.Displays
      (shown && st.session.hasRegionAt site) := by
    have hfaithful := Stage.Faithful.ensureRegion h site
    unfold Stage.Displays
    -- the region that is there stays as it was shown, and one that is started is not drawn
    rcases st.ensureRegion_cases site with ⟨hat, -, hst⟩ | ⟨hat, -⟩
    · rw [hat, hst] at hfaithful
      rwa [hat, hst, Bool.and_true]
    · rw [hat] at hfaithful
      rwa [hat, Bool.and_false]
  cases op with
  | ensureRegion site => exact hensure site
  | setMain site => exact Stage.Faithful.setMain h site
  | setVice site =>
    rcases st.setVice_cases site with ⟨-, hset⟩ | ⟨r, -, hset⟩
    · rw [apply, shows, hset]
      exact hensure site
    · rw [apply, shows, hset]
      exact ((hensure site).mark .off site).putRegion r
  | setKind kind =>
    rcases st.setKind_cases kind with ⟨hkind, hset⟩ | ⟨r, hr, hkind, hset⟩
    · rw [apply, shows, hset, hkind]
      exact h.congr rfl rfl rfl
    · have hshows : (st.session.region.any fun r => r.kind ≠ kind) = true := by
        rw [hr]
        exact decide_eq_true hkind
      rw [apply, shows, hset, hshows]
      have hnoted : Stage.Faithful { st with
          session := { st.session with hint := some kind, dirty := true } } _ := h.congr rfl rfl rfl
      exact hnoted.unmarkAll.putRegion _
  | modifyRegion op =>
    rcases st.modifyRegion_cases op.apply with hset | ⟨r, r', -, -, hset⟩
    · rw [apply, shows, hset]
      exact h
    · rw [apply, shows, hset]
      exact Stage.Faithful.putRegion h r'
  | setRegion r =>
    have hnoted : Stage.Faithful { st.unmarkAll with
        session := { st.unmarkAll.session with hint := some r.kind } } _ :=
      (Stage.Faithful.unmarkAll h).congr rfl rfl rfl
    exact hnoted.putRegion r
  | clearRegion => exact (Stage.Faithful.eraseOutline h).unmarkAll.congr rfl rfl rfl
  | setOverlay overlay => exact Stage.Shows.setOverlay h overlay
  | setConfig config | markDirty | setClipboard clipboard | setHistory history | setMask mask
  | setMode mode => exact h.congr rfl rfl rfl

/-! ## Sessions -/

namespace Session

variable {R : Type} {s : Session R}

/-- A session that nothing was drawn for. -/
structure Unseen (s : Session R) : Prop where
  overlay : s.overlay = none
  numbers : ∀ hand, s.numbers hand = []
  outline : s.outline = []

theorem new_unseen (config : PlayerConfig) : (new config : Session R).Unseen :=
  ⟨rfl, fun hand => by cases hand <;> rfl, rfl⟩

/-- A stored marker is not drawn. -/
theorem markerOf_undrawn {fields : Nbt.Fields} {name : String} {m : Option Marker}
    (h : markerOf fields name = .ok m) : m.bind Marker.drawing = none := by
  unfold markerOf at h
  split at h
  · exact Except.ok.inj h ▸ rfl
  · split at h
    · exact Except.ok.inj h ▸ rfl
    · exact nomatch h

theorem decode?_unseen [Radius R] {bs : List UInt8} {defaults : PlayerConfig}
    (h : decode? bs defaults = .ok s) : s.Unseen := by
  unfold decode? at h
  split at h
  · exact nomatch h
  · obtain ⟨config, -, h⟩ := bind_eq_ok h
    obtain ⟨main, hmain, h⟩ := bind_eq_ok h
    obtain ⟨vice, hvice, h⟩ := bind_eq_ok h
    obtain ⟨hint, -, h⟩ := bind_eq_ok h
    obtain ⟨region, -, h⟩ := bind_eq_ok h
    rw [← Except.ok.inj h]
    refine ⟨rfl, fun hand => ?_, rfl⟩
    cases hand
    · exact congrArg Option.toList (markerOf_undrawn hmain)
    · exact congrArg Option.toList (markerOf_undrawn hvice)

/-- Such a session starts with a blank canvas. -/
theorem Unseen.displays (hs : s.Unseen) : (⟨s, .blank⟩ : Stage R).Displays true where
  sound := Canvas.blank_sound
  markCounts hand := by
    rw [hs.numbers, s.markerDrawings_of_none hs.overlay]
    rfl
  outlineCount := by
    rw [hs.outline, if_pos rfl, s.regionDrawings_of_none hs.overlay]
    rfl
  live := by
    rw [held, held, hs.numbers, hs.numbers, hs.outline]
    exact .nil

end Session

/-- The sessions, with a canvas of their own, that a new or a stored one becomes by any operations,
and whether the region is drawn. -/
inductive Stage.Visited {R : Type} [StoredRadius R] : Stage R → Bool → Prop
  | new (config : PlayerConfig) : Visited ⟨.new config, .blank⟩ true
  | load {s : Session R} (bs : List UInt8) (defaults : PlayerConfig) :
      Session.decode? bs defaults = .ok s → Visited ⟨s, .blank⟩ true
  | step {st : Stage R} {shown : Bool} (op : SessionOp R) : Visited st shown →
      Visited (op.apply st) (op.shows st shown)

namespace Stage

variable {R : Type} [StoredRadius R] {st : Stage R} {shown : Bool}

/-- **Every session that is visited displays what it should.** -/
theorem Visited.displays (h : st.Visited shown) : st.Displays shown := by
  induction h with
  | new config => exact (Session.new_unseen config).displays
  | load bs defaults h => exact (Session.decode?_unseen h).displays
  | step op _ ih => exact op.displays ih

/-- **What is live is one box for each marker and the outline of the region, unless the region was
only started**, and then the selection is not shown in full, if the region has an outline at all.
Nothing is live without an overlay, and nothing is left of a session that ends. -/
theorem Visited.drawings_exact (h : st.Visited shown) :
    st.canvas.drawings.Perm (st.session.markerDrawings .main ++ st.session.markerDrawings .off ++
        if shown then st.session.regionDrawings else []) ∧
      (st.canvas.drawings.Perm (st.session.markerDrawings .main ++
        st.session.markerDrawings .off ++ st.session.regionDrawings) ↔
          shown = true ∨ st.session.regionDrawings = []) ∧
      (st.session.overlay = none → st.canvas.drawings = []) ∧ st.discard.drawings = [] := by
  have hdrawings := h.displays.drawings
  refine ⟨hdrawings, ?_, fun hnone => ?_, h.displays.discard⟩
  · cases shown with
    | true => exact ⟨fun _ => .inl rfl, fun _ => hdrawings⟩
    | false =>
      constructor
      · intro hfull
        have hlength := (hdrawings.symm.trans hfull).length_eq
        rw [if_neg Bool.false_ne_true, List.append_nil] at hlength
        simp only [List.length_append] at hlength
        exact .inr (List.eq_nil_of_length_eq_zero (by omega))
      · rintro (hshown | hnil)
        · exact nomatch hshown
        · rw [hnil]
          exact hdrawings
  · rw [st.session.markerDrawings_of_none hnone, st.session.markerDrawings_of_none hnone,
      st.session.regionDrawings_of_none hnone, ite_self] at hdrawings
    exact hdrawings.eq_nil

/-- Both corners of a box are picked under an overlay. -/
def shownCorners : Stage Float :=
  (SessionOp.setVice ⟨0, ⟨4, 5, 6⟩⟩).apply ((SessionOp.setMain ⟨0, ⟨1, 2, 3⟩⟩).apply
    ((SessionOp.setOverlay (some .standard)).apply ⟨.new .standard, .blank⟩))

theorem Visited.drawings_exact_corners : shownCorners.Visited true ∧
    shownCorners.canvas.drawings.Perm
      [⟨0, .box (.point ⟨1, 2, 3⟩), Colors.standard.mainHand⟩,
        ⟨0, .box (.point ⟨4, 5, 6⟩), Colors.standard.offHand⟩,
        ⟨0, .box ⟨⟨1, 2, 3⟩, ⟨4, 5, 6⟩⟩, Colors.standard.line⟩] ∧
    shownCorners.discard.drawings = [] := by
  have hvisited : shownCorners.Visited true := .step _ (.step _ (.step _ (.new _)))
  exact ⟨hvisited, (drawings_exact hvisited).1, (drawings_exact hvisited).2.2.2⟩

/-- A region is started under an overlay. -/
def startedRegion : Stage Float :=
  (SessionOp.ensureRegion ⟨0, ⟨1, 2, 3⟩⟩).apply
    ((SessionOp.setOverlay (some .standard)).apply ⟨.new .standard, .blank⟩)

/-- **A region that was only started is not shown**, although there is an overlay. -/
theorem started_region_hidden : startedRegion.Visited false ∧
    startedRegion.session.overlay = some .standard ∧
    startedRegion.session.regionDrawings =
      [⟨0, .box (.point ⟨1, 2, 3⟩), Colors.standard.line⟩] ∧
    startedRegion.canvas.drawings = [] :=
  ⟨.step _ (.step _ (.new _)), rfl, rfl, rfl⟩

end Stage

end VoxelEdit
