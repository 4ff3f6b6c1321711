import VoxelEdit.Number.Width
import VoxelEdit.Player.Id
import VoxelEdit.Session.Basic

/-!
# Clicks

A click with the wand sets the marker of its hand, unless it comes too soon after the last one of
the same hand. Long clicks and clicks with other items pass through and leave no trace. A wand
click that comes too soon still counts as the last one.
-/

namespace VoxelEdit

/-- A player: the session, and the tick of the last click of each hand. A temporary player is
never saved. -/
structure Player (R : Type) where
  id : PlayerId
  temporary : Bool
  lastMain : Option Nat
  lastOff : Option Nat
  session : Session R

namespace Player

variable {R : Type}

/-- A player who has not clicked yet. -/
def new (id : PlayerId) (temporary : Bool) (session : Session R) : Player R :=
  ⟨id, temporary, none, none, session⟩

/-- The tick of the last click of a hand. -/
def last (p : Player R) : Hand → Option Nat
  | .main => p.lastMain
  | .off => p.lastOff

/-- The player with another last click of a hand. -/
def withLast (p : Player R) (hand : Hand) (tick : Option Nat) : Player R :=
  match hand with
  | .main => { p with lastMain := tick }
  | .off => { p with lastOff := tick }

end Player

/-- An interaction: the left button is the main hand, the right one the other. -/
structure Click where
  hand : Hand
  long : Bool
  item : String
  site : Site
  tick : Nat
deriving DecidableEq, Repr

/-- What becomes of an interaction: it goes on to the game, or it ends here. -/
inductive Reaction where
  | pass | hold
deriving DecidableEq, Repr

namespace Click

/-- The tick that stands for no click. -/
def never : Nat := Number.maxWord64

/-- The tick as the last one of a hand. -/
def moment (c : Click) : Option Nat := if c.tick = never then none else some c.tick

/-- Whether a click comes too soon after the last one. -/
def tooSoon (c : Click) (last : Option Nat) (pause : Nat) : Bool :=
  last.any fun t => c.tick - t < pause

/-- Sets the marker that a click is for. -/
def select {R : Type} [Radius R] (c : Click) (st : Stage R) : Stage R :=
  match c.hand with
  | .main => (st.setMain c.site).1
  | .off => (st.setVice c.site).1

/-- Handles a click of a player. -/
def handle {R : Type} [Radius R] (c : Click) (p : Player R) (canvas : Canvas R) :
    Reaction × Player R × Canvas R :=
  if p.session.config.wand ≠ c.item || c.long then (.pass, p, canvas)
  else
    let last := p.last c.hand
    let p := p.withLast c.hand c.moment
    if c.tooSoon last p.session.config.pause then (.hold, p, canvas)
    else
      let st := c.select ⟨p.session, canvas⟩
      (.hold, { p with session := st.session }, st.canvas)

end Click

end VoxelEdit
