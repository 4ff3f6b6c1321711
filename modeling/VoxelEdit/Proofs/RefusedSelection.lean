import VoxelEdit.Proofs.ShownSelection

/-!
# What a refused position leaves behind

A main position is never refused. A vice position is refused by the region to work on, and by then
that region may have been started in place of the present one.

* `Stage.setVice_refused_iff`: who refuses a vice position.
* `Stage.refused_unchanged_iff`: **a refused vice position leaves the session and its canvas as they
  were exactly if the region lies in its dimension.** Otherwise another region is left.
* `Stage.refused_elsewhere_loses`: a polygon and its marker are lost to a position that is refused.
-/

namespace VoxelEdit

namespace Stage

section

variable {R : Type} [Radius R] {st : Stage R} {site : Site}

/-- A vice position is refused exactly if the region to work on refuses it. -/
theorem setVice_refused_iff : (st.setVice site).2 = false ↔
    (st.ensureRegion site).2.setVice? site.pos = none := by
  rcases st.setVice_cases site with ⟨hnone, hset⟩ | ⟨r, hr, hset⟩
  · rw [hset]
    exact ⟨fun _ => hnone, fun _ => rfl⟩
  · rw [hset, hr]
    exact ⟨nofun, nofun⟩

/-- A refused vice position leaves the region that was asked. -/
theorem setVice_of_refused (h : (st.setVice site).2 = false) :
    (st.setVice site).1 = (st.ensureRegion site).1 := by
  rcases st.setVice_cases site with ⟨-, hset⟩ | ⟨r, -, hset⟩
  · rw [hset]
  · rw [hset] at h
    exact nomatch h

/-- A region that is started is not the one that was there. -/
theorem startRegion_region_ne (h : st.session.hasRegionAt site = false) :
    (st.startRegion site).1.session.region ≠ st.session.region := by
  intro heq
  have hat : (st.startRegion site).1.session.hasRegionAt site = true := decide_eq_true rfl
  unfold Session.hasRegionAt at h hat
  rw [heq, h] at hat
  exact nomatch hat

/-- Polygons and hulls refuse the position that they are started at. -/
theorem setVice_refused_of_start (h : st.session.hasRegionAt site = false)
    (hkind : st.session.kind = .polygon ∨ st.session.kind = .convex) :
    (st.setVice site).2 = false := by
  rcases st.ensureRegion_cases site with ⟨hat, -⟩ | ⟨-, hstart⟩
  · rw [h] at hat
    exact nomatch hat
  · rw [setVice_refused_iff, hstart]
    show (Region.ofPoint st.session.kind site.dim site.pos : Region R).setVice? site.pos = none
    rcases hkind with hkind | hkind
    · rw [hkind]
      simp [Region.setVice?, Region.ofPoint, Shape.ofPoint, Shape.setVice?, Polygon.setVice?,
        Polygon.ofPoint, Polygon.make]
    · rw [hkind]
      simp [Region.setVice?, Region.ofPoint, Shape.ofPoint, Shape.setVice?, Convex.setVice?,
        Convex.ofPoint, Convex.ofPoints]

/-- Sets the position of a hand, unless the region refuses it. -/
def setSite (st : Stage R) : Hand → Site → Stage R × Bool
  | .main, site => st.setMain site
  | .off, site => st.setVice site

/-- **A refused position leaves the session and its canvas as they were exactly if the region lies
in its dimension.** Only a vice position is refused. Where no region lies in its dimension, one is
started all the same, in place of the one that was there. -/
theorem refused_unchanged_iff {hand : Hand} (h : (st.setSite hand site).2 = false) :
    hand = .off ∧
      ((st.setSite hand site).1 = st ↔ st.session.hasRegionAt site = true) ∧
      (st.session.hasRegionAt site = false →
        (st.setSite hand site).1 = (st.startRegion site).1 ∧
          (st.setSite hand site).1.session.region ≠ st.session.region) := by
  cases hand with
  | main => exact nomatch h
  | off =>
    have hset : (st.setSite .off site).1 = (st.ensureRegion site).1 := setVice_of_refused h
    refine ⟨rfl, ?_⟩
    rw [hset]
    rcases st.ensureRegion_cases site with ⟨hat, -, hkept⟩ | ⟨hat, hstart⟩
    · rw [hkept, hat]
      exact ⟨⟨fun _ => rfl, fun _ => rfl⟩, nofun⟩
    · have hne := startRegion_region_ne hat
      rw [hstart]
      refine ⟨⟨fun heq => absurd (congrArg (fun st : Stage R => st.session.region) heq) hne,
        fun hat' => ?_⟩, fun _ => ⟨rfl, hne⟩⟩
      rw [hat] at hat'
      exact nomatch hat'

end

/-- A polygon is asked for, and its first vertex is picked. -/
def firstVertex : Stage Float :=
  (SessionOp.setMain ⟨0, ⟨1, 2, 3⟩⟩).apply
    ((SessionOp.setKind .polygon).apply ⟨.new .standard, .blank⟩)

theorem refused_unchanged_iff_vertex :
    (firstVertex.setSite .off ⟨0, ⟨1, 5, 3⟩⟩).2 = false ∧
      (firstVertex.setSite .off ⟨0, ⟨1, 5, 3⟩⟩).1 = firstVertex :=
  ⟨rfl, (refused_unchanged_iff rfl).2.1.2 rfl⟩

/-- **A position in another dimension is refused, and the region and its marker are lost to it.** -/
theorem refused_elsewhere_loses : firstVertex.Visited true ∧
    (firstVertex.setSite .off ⟨1, ⟨4, 5, 6⟩⟩).2 = false ∧
    firstVertex.session.mainSite = some ⟨0, ⟨1, 2, 3⟩⟩ ∧
    (firstVertex.setSite .off ⟨1, ⟨4, 5, 6⟩⟩).1.session.mainSite = none ∧
    (firstVertex.session.region.map Region.dim) = some 0 ∧
    ((firstVertex.setSite .off ⟨1, ⟨4, 5, 6⟩⟩).1.session.region.map Region.dim) = some 1 :=
  ⟨.step _ (.step _ (.new _)), setVice_refused_of_start rfl (.inl rfl), rfl, rfl, rfl, rfl⟩

end Stage

end VoxelEdit
