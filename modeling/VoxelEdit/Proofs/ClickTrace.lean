import VoxelEdit.Player.Click
import VoxelEdit.Proofs.SessionReach

/-!
# Which clicks set a marker

A wand click counts if the pause has passed since the latest wand click of the same hand, whether
that one counted or not. A tick that goes backwards has no time passed.

* `Click.latest`: the tick of the latest wand click of a hand. `Click.counted`: the clicks of a trace
  that count, each after the ones before it.
* `Player.Follows.handle`: the player remembers the latest wand click of each hand.
* `Player.handleAll_exact`: **a player who has handled any clicks has held the wand clicks and passed
  the others on, has set a marker for each click that counts and for no other, and remembers the
  latest wand click of each hand.** Which clicks of one hand count depends on its wand clicks alone.
-/

namespace VoxelEdit

namespace Click

variable (config : PlayerConfig)

/-- A short click with the wand. -/
def isWand (c : Click) : Bool := config.wand = c.item && !c.long

/-- What becomes of a click: wand clicks end here. -/
def reaction (c : Click) : Reaction := if c.isWand config then .hold else .pass

/-- The wand clicks of a hand. -/
def ofHand (hand : Hand) (cs : List Click) : List Click :=
  cs.filter fun c => c.isWand config && c.hand = hand

/-- The tick of the latest wand click of a hand. -/
def latest (hand : Hand) (cs : List Click) : Option Nat := (ofHand config hand cs).getLast?.map tick

/-- Whether a click sets its marker after `earlier` ones: it is a wand click, and the pause has
passed since the latest one of the same hand, if there is one. -/
def counts (earlier : List Click) (c : Click) : Bool :=
  c.isWand config && (latest config c.hand earlier).all fun t => config.pause ≤ c.tick - t

/-- The clicks of a trace that set their marker after `earlier` ones. -/
def counted : (earlier : List Click) → List Click → List Click
  | _, [] => []
  | earlier, c :: cs =>
    if c.counts config earlier then c :: counted (earlier ++ [c]) cs else counted (earlier ++ [c]) cs

variable {config} {c : Click} {earlier : List Click}

theorem ofHand_concat (hand : Hand) : ofHand config hand (earlier ++ [c]) =
    ofHand config hand earlier ++ if c.isWand config && c.hand = hand then [c] else [] := by
  unfold ofHand
  rw [List.filter_append, List.filter_singleton, cond_eq_ite]

/-- Only wand clicks of a hand become its latest. -/
theorem latest_concat (hand : Hand) : latest config hand (earlier ++ [c]) =
    if c.isWand config && c.hand = hand then some c.tick else latest config hand earlier := by
  unfold latest
  rw [ofHand_concat]
  split
  · rw [List.getLast?_concat, Option.map_some]
  · rw [List.append_nil]

theorem counts_ofHand : c.counts config (ofHand config c.hand earlier) = c.counts config earlier := by
  unfold counts latest ofHand
  rw [List.filter_filter]
  simp only [Bool.and_self]

/-- **Which clicks of a hand count depends on its wand clicks alone.** -/
theorem counted_ofHand (hand : Hand) (cs : List Click) :
    (counted config earlier cs).filter (fun c => c.hand = hand) =
      counted config (ofHand config hand earlier) (ofHand config hand cs) := by
  induction cs generalizing earlier with
  | nil => rfl
  | cons c cs ih =>
    have hrest := @ih (earlier ++ [c])
    rw [ofHand_concat] at hrest
    cases hc : c.isWand config && decide (c.hand = hand) with
    | true =>
      -- a wand click of the hand counts in both traces or in none
      have hhand : c.hand = hand := of_decide_eq_true (Bool.and_eq_true_iff.1 hc).2
      have hcons : ofHand config hand (c :: cs) = c :: ofHand config hand cs :=
        List.filter_cons_of_pos hc
      rw [if_pos hc] at hrest
      subst hhand
      rw [hcons, counted, counted, counts_ofHand]
      split
      · rw [List.filter_cons_of_pos (by exact decide_eq_true rfl), hrest]
      · exact hrest
    | false =>
      -- any other click is gone from the trace, and if it counts, then for the other hand
      have hcons : ofHand config hand (c :: cs) = ofHand config hand cs :=
        List.filter_cons_of_neg (by rw [hc]; exact Bool.false_ne_true)
      rw [if_neg (by rw [hc]; exact Bool.false_ne_true), List.append_nil] at hrest
      rw [hcons, counted]
      split
      · rename_i hcounts
        have hwand : c.isWand config = true := (Bool.and_eq_true_iff.1 hcounts).1
        rw [hwand, Bool.true_and] at hc
        rw [List.filter_cons_of_neg (by rw [hc]; exact Bool.false_ne_true), hrest]
      · exact hrest

end Click

/-! ## Settings -/

namespace Stage

variable {R : Type} (st : Stage R)

theorem mark_config (hand : Hand) (site : Site) :
    (st.mark hand site).session.config = st.session.config := by
  obtain ⟨drawing, h⟩ := st.mark_session hand site
  rw [h]
  cases hand <;> rfl

theorem putRegion_config (r : Region R) :
    (st.putRegion r).session.config = st.session.config :=
  congrArg Selection.config (st.putRegion_selection r)

variable [Radius R]

theorem ensureRegion_config (site : Site) :
    (st.ensureRegion site).1.session.config = st.session.config := by
  rcases st.ensureRegion_cases site with ⟨-, -, h⟩ | ⟨-, h⟩
  · rw [h]
  · rw [h]
    unfold startRegion
    dsimp only
    split <;> rfl

theorem setMain_config (site : Site) :
    (st.setMain site).1.session.config = st.session.config := by
  unfold setMain
  dsimp only
  rw [putRegion_config]
  split
  · exact (mark_config _ .main site).trans (st.ensureRegion_config site)
  · exact (mark_config _ .main site).trans (st.ensureRegion_config site)

theorem setVice_config (site : Site) :
    (st.setVice site).1.session.config = st.session.config := by
  rcases st.setVice_cases site with ⟨-, h⟩ | ⟨r, -, h⟩
  · rw [h]
    exact st.ensureRegion_config site
  · rw [h]
    exact (putRegion_config _ r).trans ((mark_config _ .off site).trans (st.ensureRegion_config site))

end Stage

/-! ## Players -/

namespace Player

variable {R : Type} {p : Player R}

theorem withLast_session (hand : Hand) (tick : Option Nat) :
    (p.withLast hand tick).session = p.session := by
  cases hand <;> rfl

theorem withLast_last (hand other : Hand) (tick : Option Nat) :
    (p.withLast hand tick).last other = if hand = other then tick else p.last other := by
  cases hand <;> cases other <;> rfl

/-- A player who has handled `earlier` clicks remembers the latest wand click of each hand. -/
structure Follows (config : PlayerConfig) (earlier : List Click) (p : Player R) : Prop where
  settings : p.session.config = config
  last : ∀ hand, p.last hand = Click.latest config hand earlier

/-- A new player has handled none. -/
theorem new_follows (id : PlayerId) (temporary : Bool) (session : Session R) :
    (new id temporary session).Follows session.config [] :=
  ⟨rfl, fun hand => by cases hand <;> rfl⟩

end Player

namespace Click

variable {R : Type} [Radius R] {c : Click} {p : Player R} {canvas : Canvas R}

theorem select_config (st : Stage R) : (c.select st).session.config = st.session.config := by
  unfold select
  cases c.hand
  · exact st.setMain_config c.site
  · exact st.setVice_config c.site

theorem isWand_eq (config : PlayerConfig) :
    (config.wand ≠ c.item || c.long : Bool) = !c.isWand config := by
  rw [isWand, Bool.not_and, Bool.not_not, decide_not]

theorem handle_of_not_wand (h : c.isWand p.session.config = false) :
    c.handle p canvas = (.pass, p, canvas) := by
  unfold handle
  rw [isWand_eq, h]
  rfl

theorem handle_of_wand (h : c.isWand p.session.config = true) : c.handle p canvas =
    if c.tooSoon (p.last c.hand) p.session.config.pause then
      (.hold, p.withLast c.hand c.moment, canvas)
    else (.hold, { p.withLast c.hand c.moment with
        session := (c.select ⟨p.session, canvas⟩).session }, (c.select ⟨p.session, canvas⟩).canvas) := by
  unfold handle
  rw [isWand_eq, h]
  dsimp only [Bool.not_true]
  rw [Player.withLast_session]
  rfl

/-- A wand click counts unless it comes too soon. -/
theorem counts_of_wand {config : PlayerConfig} {earlier : List Click} (h : c.isWand config = true) :
    c.counts config earlier = !c.tooSoon (latest config c.hand earlier) config.pause := by
  unfold counts tooSoon
  rw [h, Bool.true_and]
  cases latest config c.hand earlier with
  | none => rfl
  | some t =>
    show decide (config.pause ≤ c.tick - t) = !decide (c.tick - t < config.pause)
    rw [← decide_not, decide_eq_decide, not_lt]

theorem moment_of_ne (h : c.tick ≠ never) : c.moment = some c.tick := if_neg h

end Click

namespace Player.Follows

variable {R : Type} [Radius R] {config : PlayerConfig} {earlier : List Click} {p : Player R}

/-- **What a click does**: it is held or passed on, its marker is set if it counts, and the player
remembers it if it is a wand click. -/
theorem handle (h : p.Follows config earlier) {c : Click} (htick : c.tick ≠ Click.never)
    (canvas : Canvas R) :
    (c.handle p canvas).1 = c.reaction config ∧
      (⟨(c.handle p canvas).2.1.session, (c.handle p canvas).2.2⟩ : Stage R) =
        (if c.counts config earlier then c.select ⟨p.session, canvas⟩ else ⟨p.session, canvas⟩) ∧
      (c.handle p canvas).2.1.Follows config (earlier ++ [c]) := by
  obtain ⟨rfl, hlast⟩ := h
  cases hwand : c.isWand p.session.config with
  | false =>
    rw [Click.handle_of_not_wand hwand, Click.reaction, Click.counts, hwand]
    refine ⟨rfl, rfl, rfl, fun hand => ?_⟩
    rw [Click.latest_concat, hwand]
    exact hlast hand
  | true =>
    have hlatest (hand : Hand) : (p.withLast c.hand c.moment).last hand =
        Click.latest p.session.config hand (earlier ++ [c]) := by
      rw [withLast_last, Click.latest_concat, hwand, Click.moment_of_ne htick, hlast]
      simp
    rw [Click.handle_of_wand hwand, Click.reaction, Click.counts_of_wand hwand, hwand, hlast]
    cases c.tooSoon (Click.latest p.session.config c.hand earlier) p.session.config.pause with
    | true =>
      have hsession : (p.withLast c.hand c.moment).session = p.session := withLast_session _ _
      exact ⟨rfl, congrArg (fun s => (⟨s, canvas⟩ : Stage R)) hsession,
        congrArg Session.config hsession, hlatest⟩
    | false => exact ⟨rfl, rfl, Click.select_config _, hlatest⟩

end Player.Follows

/-! ## Traces -/

namespace Player

variable {R : Type} [Radius R] {config : PlayerConfig}

/-- Handles clicks one after another. -/
def handleAll : List Click → Player R → Canvas R → List Reaction × Player R × Canvas R
  | [], p, canvas => ([], p, canvas)
  | c :: cs, p, canvas =>
    let (reaction, p, canvas) := c.handle p canvas
    let (reactions, p, canvas) := handleAll cs p canvas
    (reaction :: reactions, p, canvas)

/-- **What a trace does** to a player who has handled `earlier` clicks. -/
theorem Follows.handleAll {cs : List Click} (hticks : ∀ c ∈ cs, c.tick ≠ Click.never)
    {earlier : List Click} {p : Player R} (h : p.Follows config earlier) (canvas : Canvas R) :
    (handleAll cs p canvas).1 = cs.map (Click.reaction config) ∧
      (⟨(handleAll cs p canvas).2.1.session, (handleAll cs p canvas).2.2⟩ : Stage R) =
        (Click.counted config earlier cs).foldl (fun st c => c.select st) ⟨p.session, canvas⟩ ∧
      (handleAll cs p canvas).2.1.Follows config (earlier ++ cs) := by
  induction cs generalizing earlier p canvas with
  | nil => exact ⟨rfl, rfl, by rwa [List.append_nil]⟩
  | cons c cs ih =>
    obtain ⟨hreaction, hstage, hfollows⟩ := h.handle (hticks c List.mem_cons_self) canvas
    obtain ⟨hreactions, hstages, hfollows⟩ := ih (fun d hd => hticks d (List.mem_cons_of_mem c hd))
      hfollows (c.handle p canvas).2.2
    rw [List.append_assoc, List.singleton_append] at hfollows
    refine ⟨congrArg₂ List.cons hreaction hreactions, ?_, hfollows⟩
    refine hstages.trans ?_
    rw [hstage, Click.counted]
    split
    · rfl
    · rfl

/-- **A player who has handled any clicks** has held the wand clicks and passed the others on, has
set a marker for each click that counts and for no other, and remembers the latest wand click of
each hand. Which clicks of a hand count depends on its wand clicks alone. -/
theorem handleAll_exact (id : PlayerId) (temporary : Bool) (session : Session R)
    (canvas : Canvas R) (cs : List Click) (hticks : ∀ c ∈ cs, c.tick ≠ Click.never) :
    (handleAll cs (new id temporary session) canvas).1 = cs.map (Click.reaction session.config) ∧
      (⟨(handleAll cs (new id temporary session) canvas).2.1.session,
          (handleAll cs (new id temporary session) canvas).2.2⟩ : Stage R) =
        (Click.counted session.config [] cs).foldl (fun st c => c.select st) ⟨session, canvas⟩ ∧
      (∀ hand, (handleAll cs (new id temporary session) canvas).2.1.last hand =
        Click.latest session.config hand cs) ∧
      ∀ hand, (Click.counted session.config [] cs).filter (fun c => c.hand = hand) =
        Click.counted session.config [] (Click.ofHand session.config hand cs) := by
  obtain ⟨hreactions, hstage, hfollows⟩ :=
    (new_follows id temporary session).handleAll hticks canvas
  exact ⟨hreactions, hstage, hfollows.last, fun hand => Click.counted_ofHand hand cs⟩

/-- Clicks of both hands, among them one with another item and a long one. The main hand clicks too
soon twice, the second time after a click that came too soon itself, and then goes back in time. -/
def interleaved : List Click :=
  let wand (hand : Hand) (p : Pos) (tick : Nat) : Click :=
    ⟨hand, false, PlayerConfig.standard.wand, ⟨0, p⟩, tick⟩
  [wand .main ⟨1, 0, 0⟩ 10, wand .off ⟨2, 0, 0⟩ 11, wand .main ⟨3, 0, 0⟩ 12,
    { wand .main ⟨4, 0, 0⟩ 13 with item := "" }, { wand .main ⟨5, 0, 0⟩ 13 with long := true },
    wand .main ⟨6, 0, 0⟩ 14, wand .main ⟨7, 0, 0⟩ 17, wand .main ⟨8, 0, 0⟩ 5,
    wand .main ⟨9, 0, 0⟩ 8]

theorem handleAll_exact_interleaved :
    let cs := interleaved
    let s : Session Float := .new .standard
    (∀ c ∈ cs, c.tick ≠ Click.never) ∧
      (handleAll cs (new default false s) .blank).1 =
        [.hold, .hold, .hold, .pass, .pass, .hold, .hold, .hold, .hold] ∧
      (handleAll cs (new default false s) .blank).2.1.last .main = some 8 ∧
      (Click.counted .standard [] cs).map Click.tick = [10, 11, 17, 8] ∧
      (⟨(handleAll cs (new default false s) .blank).2.1.session,
          (handleAll cs (new default false s) .blank).2.2⟩ : Stage Float) =
        (Click.counted .standard [] cs).foldl (fun st c => c.select st) ⟨s, .blank⟩ := by
  intro cs s
  have hticks : ∀ c ∈ cs, c.tick ≠ Click.never := by decide
  obtain ⟨hreactions, hstage, hlast, -⟩ := handleAll_exact default false s .blank cs hticks
  exact ⟨hticks, hreactions.trans (by decide), (hlast .main).trans (by decide), by decide, hstage⟩

end Player

end VoxelEdit
