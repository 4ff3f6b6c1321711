import VoxelEdit.Proofs.DoubleRadius
import VoxelEdit.Proofs.SessionReach

/-!
# When sessions survive storage

* `Stage.Reached`: the sessions that a new one becomes by any operations whose texts and positions
  stay in range. Their regions are reached (`Stage.Reached.region`).
* `Session.survives_iff_bounded`: **a session is read back as it was written exactly if the numbers
  of its settings are bounded, and a sphere has a radius of at least one half.** The writer cuts the
  settings to signed numbers of 64 and 32 bits, and the reader takes none below zero; and half of
  what a sphere is resized by is cut to 32 bits, which leaves radii that the reader does not take.
* `Session.unbounded_pause_lost`: a pause of `2 ^ 63` ticks, which settings may have, makes the
  whole session unreadable.
-/

namespace VoxelEdit

open Number Nbt

/-- The sessions, with the canvas that they draw on, that a new one with given settings becomes. -/
inductive Stage.Reached {R : Type} [StoredRadius R] (config : PlayerConfig) : Stage R → Prop
  | new (canvas : Canvas R) : ShortText config.wand → Reached config ⟨.new config, canvas⟩
  | step {st : Stage R} (op : SessionOp R) : Reached config st →
      (∀ r, op = .setRegion r → r.Reached) → (op.apply st).session.selection.InRange →
      Reached config (op.apply st)

section

variable {R : Type} [StoredRadius R] {config : PlayerConfig} {st : Stage R}

theorem Stage.Reached.inRange (h : st.Reached config) : st.session.selection.InRange := by
  cases h with
  | new canvas hwand => exact (Session.new_storable hwand).toInRange
  | step op _ _ hrange => exact hrange

/-- **A region that a session has is reached.** -/
theorem Stage.Reached.region (h : st.Reached config) :
    ∀ r, st.session.region = some r → r.Reached := by
  induction h with
  | new canvas hwand => exact fun r hr => nomatch hr
  | step op _ hop _ ih => exact SessionOp.reached ih hop

/-- What it means that a session survives storage: it is written, and whatever the defaults are,
what is read has the same selection and nothing to save. -/
def Session.Survives (s : Session R) : Prop :=
  ∃ bs, s.encode? = some bs ∧ ∀ defaults, ∃ s' : Session R, decode? bs defaults = .ok s' ∧
    s'.selection = s.selection ∧ s'.dirty = false

/-- **A session survives storage exactly if its numbers are bounded**: the pause between clicks by
the largest signed number of 64 bits, the length of the history by the largest of 32, and the radius
of a sphere by one half from below. -/
theorem Session.survives_iff_bounded (h : st.Reached config) : st.session.Survives ↔
    (st.session.config.pause : Int) ≤ maxInt64 ∧
      (st.session.config.historyLength : Int) ≤ maxInt32 ∧
        ∀ r s, st.session.region = some r → r.shape = .sphere s → ProperRadius s.radius := by
  have hfilled (r : Region R) (hr : st.session.region = some r) := (h.region r hr).filled
  constructor
  · rintro ⟨bs, hbs, hread⟩
    obtain ⟨bs', hbs', hfields⟩ := Session.decode?_eq_ofFields? h.inRange hfilled
    obtain rfl : bs = bs' := Option.some.inj (hbs.symm.trans hbs')
    -- any defaults do, for what is written has all settings
    obtain ⟨s', hs', hsame, -⟩ := hread st.session.config
    rw [hfields] at hs'
    have hconfig : s'.config = st.session.config := congrArg Selection.config hsame
    have hregion : s'.region = st.session.region := congrArg Selection.region hsame
    have hbounded := hconfig ▸ Session.bounded_of_ofFields? hs'
    refine ⟨hbounded.pause, hbounded.historyLength, fun r s hr hs => ?_⟩
    have hproper := (Session.fit_of_ofFields? hs' r (hregion.trans hr)).proper
    rwa [hs] at hproper
  · rintro ⟨hpause, hhistory, hradius⟩
    have hfit (r : Region R) (hr : st.session.region = some r) : r.Fit :=
      ⟨(h.region r hr).sound, (hfilled r hr).proper_of_radius fun s hs => hradius r s hr hs⟩
    have hstorable : st.session.selection.Storable := { h.inRange with fit := hfit }
    obtain ⟨bs, hbs, hread⟩ := Session.decode?_encode? hstorable ⟨hpause, hhistory⟩
    exact ⟨bs, hbs, fun defaults => ⟨_, hread defaults, Session.selection_ofSelection _, rfl⟩⟩

end

/-- A corner is picked, and then the opposite one. -/
def Stage.twoCorners : Stage Float :=
  (SessionOp.setVice ⟨0, ⟨4, 5, 6⟩⟩).apply
    ((SessionOp.setMain ⟨0, ⟨1, 2, 3⟩⟩).apply ⟨.new .standard, .blank⟩)

theorem Session.survives_iff_bounded_cuboid :
    Stage.twoCorners.Reached .standard ∧ Stage.twoCorners.session.Survives := by
  have hwand : ShortText PlayerConfig.standard.wand := by decide +kernel
  have hdim : Narrow 0 := by unfold Narrow; decide
  have hp : (⟨1, 2, 3⟩ : Pos).InWorld := by constructor <;> unfold Narrow <;> decide
  have hq : (⟨4, 5, 6⟩ : Pos).InWorld := by constructor <;> unfold Narrow <;> decide
  have hreached : Stage.twoCorners.Reached .standard := by
    refine .step _ (.step _ (.new .blank hwand) (fun _ h => nomatch h) ?_) (fun _ h => nomatch h) ?_
    · exact Selection.corners_inRange hwand hdim hp hp fun _ h => nomatch h
    · exact Selection.corners_inRange hwand hdim hp hq fun _ h => Option.some.inj h ▸ ⟨hdim, hq⟩
  refine ⟨hreached, (survives_iff_bounded hreached).2 ⟨by decide, by decide, ?_⟩⟩
  -- the region is a cuboid
  rintro r s hr hs
  rw [← Option.some.inj hr] at hs
  exact nomatch hs

/-- **A pause that no signed number of 64 bits holds makes the whole session unreadable**, whatever
the defaults are, although settings may have it. -/
theorem Session.unbounded_pause_lost : ∃ bs,
    (Session.new { PlayerConfig.standard with pause := 2 ^ 63 } : Session Float).encode? = some bs ∧
      ∀ defaults, (Session.decode? bs defaults : Except StateError (Session Float)) =
        .error (.invalid "config.minimumResponseTick" (.expected "non-negative long")) := by
  have hwand : ShortText PlayerConfig.standard.wand := by decide +kernel
  have hnew : (Session.new { PlayerConfig.standard with pause := 2 ^ 63 } :
      Session Float).selection.Storable := new_storable hwand
  obtain ⟨bs, hbs, hread⟩ := decode?_eq_ofFields? hnew.toInRange hnew.filled
  exact ⟨bs, hbs, fun defaults => (hread defaults).trans rfl⟩

end VoxelEdit
