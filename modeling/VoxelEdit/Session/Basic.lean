import VoxelEdit.Clipboard.Basic
import VoxelEdit.Config.Basic
import VoxelEdit.Overlay.Canvas
import VoxelEdit.Text.Blank
import VoxelEdit.World.History

/-!
# Sessions

What one player is editing: two markers, the region that they select, the clipboard and the
history. A session may have an overlay, and then its markers and its region are drawn. A `Stage`
is a session with the canvas that it draws on; whatever changes the selection acts on a stage.
-/

namespace VoxelEdit

/-- The hand that sets a marker: the main position or the vice position. -/
inductive Hand where
  | main | off
deriving DecidableEq, Repr

/-- The color of a hand's marker. -/
def Colors.hand (c : Colors) : Hand → Color
  | .main => c.mainHand
  | .off => c.offHand

/-- A picked site and the number of its drawing. -/
structure Marker where
  site : Site
  drawing : Option Nat
deriving DecidableEq, Repr

/-- The state of one player's editing. -/
structure Session (R : Type) where
  config : PlayerConfig
  main : Option Marker
  vice : Option Marker
  /-- The kind that was last asked for or made. -/
  hint : Option RegionKind
  region : Option (Region R)
  /-- The numbers of the drawings that show the region. -/
  outline : List Nat
  /-- Whether there are changes that were not saved. -/
  dirty : Bool
  clipboard : Clipboard
  history : History
  /-- The formula of the global mask. -/
  mask : Option String
  mode : UpdateMode
  /-- The colors of the overlay, if there is one. -/
  overlay : Option Colors

namespace Session

variable {R : Type} (s : Session R)

/-- A session without a selection. -/
def new (config : PlayerConfig) : Session R :=
  { config, main := none, vice := none, hint := none, region := none, outline := [], dirty := false
    clipboard := .unit, history := .empty config.historyLength, mask := none, mode := .quiet
    overlay := none }

/-- The session under other settings. -/
def setConfig (config : PlayerConfig) : Session R :=
  { s with config, history := s.history.setLimit config.historyLength, dirty := true }

/-- The marker of a hand. -/
def marker : Hand → Option Marker
  | .main => s.main
  | .off => s.vice

/-- The session with another marker. -/
def withMarker (hand : Hand) (m : Option Marker) : Session R :=
  match hand with
  | .main => { s with main := m }
  | .off => { s with vice := m }

/-- The main position. -/
def mainSite : Option Site := s.main.map Marker.site

/-- The vice position. -/
def viceSite : Option Site := s.vice.map Marker.site

/-- The kind of the next region. -/
def kind : RegionKind := s.hint.getD s.config.kind

/-- The session with a global mask; a blank one is none. -/
def setMask (mask : Option String) : Session R :=
  { s with mask := mask.filter fun m => !(Text.trim m.toList).isEmpty }

end Session

/-- A session and the canvas that it draws on. -/
structure Stage (R : Type) where
  session : Session R
  canvas : Canvas R

namespace Stage

variable {R : Type} (st : Stage R)

/-- Draws the marker of a hand, if there is an overlay. -/
def drawMarker (hand : Hand) (site : Site) : Stage R × Option Nat :=
  match st.session.overlay with
  | none => (st, none)
  | some colors =>
    let (canvas, id) := st.canvas.draw ⟨site.dim, .box (.point site.pos), colors.hand hand⟩
    ({ st with canvas }, some id)

/-- Removes the marker of a hand and its drawing. -/
def unmark (hand : Hand) : Stage R :=
  let drawings := ((st.session.marker hand).bind Marker.drawing).toList
  ⟨st.session.withMarker hand none, st.canvas.eraseAll drawings⟩

/-- Removes both markers. -/
def unmarkAll : Stage R := (st.unmark .main).unmark .off

/-- Puts the marker of a hand at a site. -/
def mark (hand : Hand) (site : Site) : Stage R :=
  let (st, drawing) := (st.unmark hand).drawMarker hand site
  { st with session := st.session.withMarker hand (some ⟨site, drawing⟩) }

/-- Draws the marker of a hand anew. -/
def redrawMarker (hand : Hand) : Stage R :=
  match st.session.marker hand with
  | none => st
  | some m => st.mark hand m.site

/-- Erases the outline of the region. -/
def eraseOutline : Stage R :=
  ⟨{ st.session with outline := [] }, st.canvas.eraseAll st.session.outline⟩

/-- Draws the outline of the region anew. -/
def redraw : Stage R :=
  let st := st.eraseOutline
  match st.session.region, st.session.overlay with
  | some r, some colors =>
    let (canvas, outline) := st.canvas.drawAll (r.outline colors)
    ⟨{ st.session with outline }, canvas⟩
  | _, _ => st

/-- Attaches or detaches the overlay. -/
def setOverlay (overlay : Option Colors) : Stage R :=
  let st := { st with session := { st.session with overlay } }
  ((st.redrawMarker .main).redrawMarker .off).redraw

/-- Ends the session: the canvas without its drawings. -/
def discard : Canvas R := st.unmarkAll.eraseOutline.canvas

/-- The stage with a changed region, drawn anew. -/
def putRegion (r : Region R) : Stage R :=
  Stage.redraw { st with session := { st.session with region := some r, dirty := true } }

/-- Replaces the region. The markers no longer describe it and are removed. -/
def setRegion (r : Region R) : Stage R :=
  let st := st.unmarkAll
  Stage.putRegion { st with session := { st.session with hint := some r.kind } } r

/-- Drops the region and the markers. -/
def clearRegion : Stage R :=
  let st := st.eraseOutline.unmarkAll
  { st with session := { st.session with region := none, dirty := true } }

variable [Radius R]

/-- Starts a region of one position in place of the present one, whose markers are removed. -/
def startRegion (site : Site) : Stage R × Region R :=
  let kind := st.session.kind
  let r := Region.ofPoint kind site.dim site.pos
  let st := (if st.session.region.isSome then st.unmarkAll else st).eraseOutline
  ({ st with session := { st.session with region := some r, hint := some kind, dirty := true } }, r)

/-- The region to work on at a site: the present one if it lies in that dimension, or a new
one. -/
def ensureRegion (site : Site) : Stage R × Region R :=
  match st.session.region with
  | some r => if r.dim = site.dim then (st, r) else st.startRegion site
  | none => st.startRegion site

/-- Sets the main position. -/
def setMain (site : Site) : Stage R × Bool :=
  let (st, r) := st.ensureRegion site
  let r := r.setMain site.pos
  let st := st.mark .main site
  let st := if r.dropsVice then st.unmark .off else st
  (st.putRegion r, true)

/-- Sets the vice position, unless the region refuses it. -/
def setVice (site : Site) : Stage R × Bool :=
  let (st, r) := st.ensureRegion site
  match r.setVice? site.pos with
  | none => (st, false)
  | some r => ((st.mark .off site).putRegion r, true)

/-- Chooses a kind of regions. A region of another kind is made anew from its box. -/
def setKind (kind : RegionKind) : Stage R :=
  let st := { st with session := { st.session with hint := some kind, dirty := true } }
  match st.session.region with
  | none => st
  | some r => if r.kind = kind then st else st.unmarkAll.putRegion (.ofBox kind r.dim r.box)

/-- Changes the region by `f`, unless there is none or `f` refuses it. -/
def modifyRegion (f : Region R → Option (Region R)) : Stage R × Bool :=
  match st.session.region.bind f with
  | none => (st, false)
  | some r => (st.putRegion r, true)

end Stage

end VoxelEdit
