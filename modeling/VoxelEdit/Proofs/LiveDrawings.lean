import VoxelEdit.Proofs.SessionReach

/-!
# What is live on the canvas of a session

* `Canvas.Sound`: what is live has different numbers, so that erasing the numbers that someone holds
  erases what was drawn for them and nothing else (`Canvas.Sound.eraseAll_perm`).
* `Stage.Shows`: what is live, sorted by who holds the numbers: the drawings of each marker and those
  of the region. Marking, unmarking, erasing and redrawing each change one of the three.
-/

namespace VoxelEdit

/-! ## Canvases -/

namespace Canvas

variable {R : Type} {c : Canvas R}

/-- What is live has different numbers, and all of them were given. -/
structure Sound (c : Canvas R) : Prop where
  nodup : (c.live.map Prod.fst).Nodup
  given : ∀ id ∈ c.live.map Prod.fst, id < c.drawn

theorem blank_sound : (blank : Canvas R).Sound := ⟨.nil, nofun⟩

theorem Sound.draw (hc : c.Sound) (d : Drawing R) : (c.draw d).1.Sound where
  nodup := List.nodup_cons.2 ⟨fun h => Nat.lt_irrefl _ (hc.given _ h), hc.nodup⟩
  given id h := by
    rcases List.mem_cons.1 h with rfl | h
    · exact Nat.lt_succ_self _
    · exact Nat.lt_succ_of_lt (hc.given id h)

theorem Sound.drawAll (hc : c.Sound) (ds : List (Drawing R)) : (c.drawAll ds).1.Sound := by
  induction ds generalizing c with
  | nil => exact hc
  | cons d ds ih => exact ih (hc.draw d)

theorem drawAll_length (ds : List (Drawing R)) : (c.drawAll ds).2.length = ds.length := by
  induction ds generalizing c with
  | nil => rfl
  | cons d ds ih => exact congrArg (· + 1) ih

/-- Drawings are added under the numbers that are told. -/
theorem drawAll_live (ds : List (Drawing R)) :
    (c.drawAll ds).1.live.Perm ((c.drawAll ds).2.zip ds ++ c.live) := by
  induction ds generalizing c with
  | nil => exact .refl _
  | cons d ds ih => exact (ih (c := (c.draw d).1)).trans List.perm_middle

theorem eraseAll_live (ids : List Nat) :
    (c.eraseAll ids).live = c.live.filter fun e => e.1 ∉ ids := by
  unfold eraseAll
  induction ids generalizing c with
  | nil => simp
  | cons id ids ih =>
    rw [List.foldl_cons, ih, erase, List.filter_filter]
    congr 1
    funext e
    simp [Bool.and_comm]

theorem eraseAll_drawn (ids : List Nat) : (c.eraseAll ids).drawn = c.drawn := by
  unfold eraseAll
  induction ids generalizing c with
  | nil => rfl
  | cons id ids ih => exact ih

theorem Sound.eraseAll (hc : c.Sound) (ids : List Nat) : (c.eraseAll ids).Sound := by
  have hsub : ((c.eraseAll ids).live.map Prod.fst).Sublist (c.live.map Prod.fst) := by
    rw [eraseAll_live]
    exact List.filter_sublist.map _
  refine ⟨hc.nodup.sublist hsub, fun id hid => ?_⟩
  rw [eraseAll_drawn]
  exact hc.given id (hsub.subset hid)

/-- Erasing what stands under some numbers leaves the rest. -/
theorem Sound.eraseAll_perm (hc : c.Sound) {gone kept : List (Nat × Drawing R)}
    (h : c.live.Perm (gone ++ kept)) : (c.eraseAll (gone.map Prod.fst)).live.Perm kept := by
  have hnodup : (gone.map Prod.fst ++ kept.map Prod.fst).Nodup := by
    rw [← List.map_append]
    exact (h.map Prod.fst).nodup_iff.1 hc.nodup
  have hgone : gone.filter (fun e => e.1 ∉ gone.map Prod.fst) = [] :=
    List.filter_eq_nil_iff.2 fun e he => by simpa using ⟨e.2, he⟩
  have hkept : kept.filter (fun e => e.1 ∉ gone.map Prod.fst) = kept :=
    List.filter_eq_self.2 fun e he => decide_eq_true fun hg =>
      List.disjoint_of_nodup_append hnodup hg (List.mem_map_of_mem he)
  have hfilter := h.filter (fun e => e.1 ∉ gone.map Prod.fst)
  rwa [List.filter_append, hgone, hkept, List.nil_append, ← eraseAll_live] at hfilter

end Canvas

/-! ## Sessions -/

namespace Session

variable {R : Type} (s : Session R)

/-- The number that the marker of a hand holds, if it is drawn. -/
def numbers (hand : Hand) : List Nat := ((s.marker hand).bind Marker.drawing).toList

/-- The box that shows a site that a hand picked, if there is an overlay. -/
def spot (hand : Hand) (site : Site) : List (Drawing R) :=
  match s.overlay with
  | none => []
  | some colors => [⟨site.dim, .box (.point site.pos), colors.hand hand⟩]

/-- The drawings that show the marker of a hand. -/
def markerDrawings (hand : Hand) : List (Drawing R) :=
  match s.marker hand with
  | none => []
  | some m => s.spot hand m.site

/-- The drawings that show the region. -/
def regionDrawings : List (Drawing R) :=
  match s.region, s.overlay with
  | some r, some colors => r.outline colors
  | _, _ => []

theorem spot_of_none (h : s.overlay = none) (hand : Hand) (site : Site) : s.spot hand site = [] := by
  unfold spot
  rw [h]

theorem markerDrawings_of_none (h : s.overlay = none) (hand : Hand) :
    s.markerDrawings hand = [] := by
  unfold markerDrawings
  split
  · rfl
  · exact s.spot_of_none h hand _

theorem regionDrawings_of_none (h : s.overlay = none) : s.regionDrawings = [] := by
  unfold regionDrawings
  rw [h]
  cases s.region <;> rfl

/-- Drawings of each hand's marker under the numbers that the markers hold. -/
def held (marks : Hand → List (Drawing R)) (hand : Hand) : List (Nat × Drawing R) :=
  (s.numbers hand).zip (marks hand)

end Session

namespace Stage

variable {R : Type} {st st' : Stage R}

theorem unmark_numbers (hand : Hand) : (st.unmark hand).session.numbers =
    Function.update st.session.numbers hand [] := by
  funext other
  cases hand <;> cases other <;> rfl

theorem unmark_markerDrawings (hand : Hand) : (st.unmark hand).session.markerDrawings =
    Function.update st.session.markerDrawings hand [] := by
  funext other
  cases hand <;> cases other <;> rfl

theorem unmark_spot (hand : Hand) (site : Site) :
    (st.unmark hand).session.spot hand site = st.session.spot hand site := by
  cases hand <;> rfl

theorem mark_canvas (hand : Hand) (site : Site) : (st.mark hand site).canvas =
    ((st.unmark hand).canvas.drawAll (st.session.spot hand site)).1 := by
  rw [← unmark_spot]
  show ((st.unmark hand).drawMarker hand site).1.canvas = _
  unfold drawMarker Session.spot
  cases (st.unmark hand).session.overlay <;> rfl

theorem mark_numbers (hand : Hand) (site : Site) : (st.mark hand site).session.numbers =
    Function.update st.session.numbers hand
      ((st.unmark hand).canvas.drawAll (st.session.spot hand site)).2 := by
  have hnumber : ((st.unmark hand).drawMarker hand site).2.toList =
      ((st.unmark hand).canvas.drawAll (st.session.spot hand site)).2 := by
    rw [← unmark_spot]
    unfold drawMarker Session.spot
    cases (st.unmark hand).session.overlay <;> rfl
  have hsession : (st.mark hand site).session = (st.unmark hand).session.withMarker hand
      (some ⟨site, ((st.unmark hand).drawMarker hand site).2⟩) :=
    congrArg (fun s : Session R => s.withMarker hand _) (drawMarker_session _ hand site)
  rw [hsession, ← hnumber]
  funext other
  cases hand <;> cases other <;> rfl

theorem mark_markerDrawings (hand : Hand) (site : Site) :
    (st.mark hand site).session.markerDrawings =
      Function.update st.session.markerDrawings hand (st.session.spot hand site) := by
  obtain ⟨drawing, h⟩ := st.mark_session hand site
  rw [h]
  funext other
  cases hand <;> cases other <;> rfl

theorem mark_outline (hand : Hand) (site : Site) :
    (st.mark hand site).session.outline = st.session.outline := by
  obtain ⟨drawing, h⟩ := st.mark_session hand site
  rw [h]
  cases hand <;> rfl

/-- What drawing the region anew does: the old outline goes, and the new one is held. -/
theorem redraw_eq : st.redraw =
    ⟨{ st.session with
        outline := (st.eraseOutline.canvas.drawAll st.session.regionDrawings).2 },
      (st.eraseOutline.canvas.drawAll st.session.regionDrawings).1⟩ := by
  obtain ⟨⟨config, main, vice, hint, region, outline, dirty, clipboard, history, mask, mode,
    overlay⟩, canvas⟩ := st
  cases region <;> cases overlay <;> rfl

/-- What is live, sorted by who holds the numbers: each marker, and the session for its region. -/
structure Shows (st : Stage R) (marks : Hand → List (Drawing R)) (outline : List (Drawing R)) :
    Prop where
  sound : st.canvas.Sound
  markCounts : ∀ hand, (st.session.numbers hand).length = (marks hand).length
  outlineCount : st.session.outline.length = outline.length
  live : st.canvas.live.Perm (st.session.held marks .main ++
    (st.session.held marks .off ++ st.session.outline.zip outline))

namespace Shows

variable {marks : Hand → List (Drawing R)} {outline : List (Drawing R)}

theorem drawings (h : st.Shows marks outline) :
    st.canvas.drawings.Perm (marks .main ++ marks .off ++ outline) := by
  have hlive := h.live.map Prod.snd
  rwa [List.map_append, List.map_append, Session.held, Session.held,
    List.map_snd_zip (h.markCounts _).ge, List.map_snd_zip (h.markCounts _).ge,
    List.map_snd_zip h.outlineCount.ge, ← List.append_assoc] at hlive

/-- Only the canvas and who holds the numbers matter. -/
theorem congr (h : st.Shows marks outline) (hcanvas : st'.canvas = st.canvas)
    (hnumbers : st'.session.numbers = st.session.numbers)
    (houtline : st'.session.outline = st.session.outline) : st'.Shows marks outline where
  sound := hcanvas ▸ h.sound
  markCounts := hnumbers ▸ h.markCounts
  outlineCount := houtline ▸ h.outlineCount
  live := by
    rw [hcanvas, houtline, Session.held, Session.held, hnumbers]
    exact h.live

theorem unmark (h : st.Shows marks outline) (hand : Hand) :
    (st.unmark hand).Shows (Function.update marks hand []) outline where
  sound := h.sound.eraseAll _
  markCounts other := by
    rw [unmark_numbers]
    rcases eq_or_ne other hand with rfl | hne
    · rw [Function.update_self, Function.update_self]
      rfl
    · rw [Function.update_of_ne hne, Function.update_of_ne hne]
      exact h.markCounts other
  outlineCount := by cases hand <;> exact h.outlineCount
  live := by
    -- what the hand holds is brought to the front and erased
    have herase {kept : List (Nat × Drawing R)}
        (hkept : st.canvas.live.Perm (st.session.held marks hand ++ kept)) :
        (st.unmark hand).canvas.live.Perm kept := by
      have := h.sound.eraseAll_perm hkept
      rwa [Session.held, List.map_fst_zip (h.markCounts hand).le] at this
    cases hand with
    | main => exact herase h.live
    | off => exact herase (h.live.trans (List.perm_append_comm_assoc _ _ _))

theorem mark (h : st.Shows marks outline) (hand : Hand) (site : Site) :
    (st.mark hand site).Shows (Function.update marks hand (st.session.spot hand site)) outline where
  sound := by
    rw [mark_canvas]
    exact (h.unmark hand).sound.drawAll _
  markCounts other := by
    rw [mark_numbers]
    rcases eq_or_ne other hand with rfl | hne
    · rw [Function.update_self, Function.update_self]
      exact Canvas.drawAll_length _
    · rw [Function.update_of_ne hne, Function.update_of_ne hne]
      exact h.markCounts other
  outlineCount := by
    rw [mark_outline]
    exact h.outlineCount
  live := by
    have hlive := (Canvas.drawAll_live (st.session.spot hand site)).trans
      ((h.unmark hand).live.append_left _)
    rw [mark_canvas, mark_outline, Session.held, Session.held, mark_numbers]
    cases hand with
    | main => exact hlive
    | off => exact hlive.trans (List.perm_append_comm_assoc _ _ _)

/-- A marker that is drawn anew shows its site, whatever it showed before. -/
theorem redrawMarker (h : st.Shows marks outline) (hand : Hand) : (st.redrawMarker hand).Shows
    (Function.update marks hand (st.session.markerDrawings hand)) outline := by
  unfold Stage.redrawMarker Session.markerDrawings
  cases hm : st.session.marker hand with
  | some m => exact h.mark hand m.site
  | none =>
    -- who holds no number shows nothing
    have hnil : marks hand = [] := by
      have := h.markCounts hand
      rw [Session.numbers, hm] at this
      exact List.eq_nil_of_length_eq_zero this.symm
    rw [Function.update_eq_self_iff.2 hnil.symm]
    exact h

theorem eraseOutline (h : st.Shows marks outline) : st.eraseOutline.Shows marks [] where
  sound := h.sound.eraseAll _
  markCounts := h.markCounts
  outlineCount := rfl
  live := by
    -- what the session holds for the region stands last
    have hlast : st.canvas.live.Perm (st.session.outline.zip outline ++
        (st.session.held marks .main ++ st.session.held marks .off)) := by
      refine h.live.trans ?_
      rw [← List.append_assoc]
      exact List.perm_append_comm
    have hlive := h.sound.eraseAll_perm hlast
    rw [List.map_fst_zip h.outlineCount.le] at hlive
    rwa [List.zip_nil_right, List.append_nil]

theorem redraw (h : st.Shows marks outline) : st.redraw.Shows marks st.session.regionDrawings := by
  have herase := h.eraseOutline
  have hmarks := herase.live
  rw [List.zip_nil_right, List.append_nil] at hmarks
  rw [redraw_eq]
  refine ⟨herase.sound.drawAll _, herase.markCounts, Canvas.drawAll_length _, ?_⟩
  -- the new outline is drawn in front of the markers
  refine ((Canvas.drawAll_live _).trans (hmarks.append_left _)).trans ?_
  rw [← List.append_assoc (Session.held _ _ _)]
  exact List.perm_append_comm

end Shows

end Stage

end VoxelEdit
