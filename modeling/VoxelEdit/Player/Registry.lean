import VoxelEdit.Player.Click
import VoxelEdit.Player.Store
import VoxelEdit.Session.Tags

/-!
# Player registries

The players that are at work, over a store that keeps the sessions of those who are not. A
player is created on first use, with the stored session if there is a readable one. Releasing a
player saves what has changed; temporary players are never loaded or saved.
-/

namespace VoxelEdit

/-- The players at work, each once, the store, the settings, and whether selections are drawn. -/
structure PlayerRegistry (R : Type) where
  players : List (Player R)
  store : Store
  canvas : Canvas R
  config : Config
  drawing : Bool

/-- A player found by a registry: one at work, or a copy made from the store. -/
inductive Found (R : Type) where
  | live (p : Player R)
  | copy (p : Player R)

namespace PlayerRegistry

variable {R : Type} (g : PlayerRegistry R)

/-- A registry without players. -/
def new (config : Config) (drawing : Bool) (store : Store) (canvas : Canvas R) :
    PlayerRegistry R := ⟨[], store, canvas, config, drawing⟩

/-- The player at work with an identity. -/
def live? (id : PlayerId) : Option (Player R) := g.players.find? fun p => p.id == id

/-- The registry with a player in place of the one with the same identity. -/
def put (p : Player R) : PlayerRegistry R :=
  { g with players := p :: g.players.filter fun q => q.id ≠ p.id }

/-- The registry without a player, whose drawings are erased. -/
def drop (p : Player R) : PlayerRegistry R :=
  { g with
    players := g.players.filter fun q => q.id ≠ p.id
    canvas := Stage.discard ⟨p.session, g.canvas⟩ }

/-- Attaches the overlay to a new session, if selections are drawn. -/
def attach (session : Session R) : Stage R :=
  let st : Stage R := ⟨session, g.canvas⟩
  if g.drawing then st.setOverlay (some g.config.colors) else st

variable [Radius R]

/-- The stored session of a player, if it can be read. -/
def load? (id : PlayerId) : Option (Session R) := do
  let bytes ← g.store.get? id.text
  (Session.decode? bytes g.config.player).toOption

/-- Saves a player's session, which then has no unsaved changes. -/
def save? (p : Player R) : Option (PlayerRegistry R) := do
  let bytes ← p.session.encode?
  let store ← g.store.set? p.id.text bytes
  return { g with store }.put { p with session := { p.session with dirty := false } }

/-- Whether a player has something to save. -/
def mustSave (p : Player R) : Bool := !p.temporary && p.session.dirty

/-- The player at work, or else a copy of what is stored, unless a temporary player is asked
for. -/
def find? (id : PlayerId) (temporary : Bool) : PlayerRegistry R × Option (Found R) :=
  match g.live? id with
  | some p => (g, some (.live p))
  | none =>
    match (if temporary then none else g.load? id) with
    | none => (g, none)
    | some session =>
      let st := g.attach session
      ({ g with canvas := st.canvas }, some (.copy (.new id false st.session)))

/-- The player at work, created if need be. -/
def obtain (id : PlayerId) (temporary : Bool) : PlayerRegistry R × Player R :=
  match g.live? id with
  | some p => (g, p)
  | none =>
    let loaded := if temporary then none else g.load? id
    let st := g.attach (loaded.getD (.new g.config.player))
    let p := Player.new id temporary st.session
    ({ g with canvas := st.canvas }.put p, p)

/-- Acts on the stage of a player at work, created if need be. -/
def modify {α : Type} (id : PlayerId) (temporary : Bool) (f : Stage R → Stage R × α) :
    PlayerRegistry R × α :=
  let (g, p) := g.obtain id temporary
  let (st, a) := f ⟨p.session, g.canvas⟩
  ({ g with canvas := st.canvas }.put { p with session := st.session }, a)

/-- Ends a player's work, saved first if there are changes. A player that cannot be saved
stays. -/
def release (id : PlayerId) : PlayerRegistry R × Bool :=
  match g.live? id with
  | none => (g, false)
  | some p =>
    if mustSave p then
      match g.save? p with
      | none => (g, false)
      | some g => (g.drop p, true)
    else (g.drop p, true)

/-- Forgets a player, at work and stored. -/
def remove (id : PlayerId) : PlayerRegistry R :=
  let g := match g.live? id with
    | some p => g.drop p
    | none => g
  { g with store := g.store.erase id.text }

/-- Ends the work of players without saving. -/
def dropAll (ps : List (Player R)) : PlayerRegistry R := ps.foldl drop g

/-- Ends the work of all temporary players. -/
def removeTemporary : PlayerRegistry R := g.dropAll (g.players.filter Player.temporary)

/-- Saves a player if there are changes, and counts it if that worked. -/
def flushOne (gn : PlayerRegistry R × Nat) (p : Player R) : PlayerRegistry R × Nat :=
  if mustSave p then
    match gn.1.save? p with
    | some g => (g, gn.2 + 1)
    | none => gn
  else gn

/-- Saves all players with changes. Returns how many were written. -/
def flush : PlayerRegistry R × Nat := g.players.foldl flushOne (g, 0)

/-- Ends the registry: what has changed is saved and all drawings are erased. -/
def close : PlayerRegistry R :=
  let g := g.flush.1
  g.dropAll g.players

/-- Handles a click of a player, created if need be. -/
def click (id : PlayerId) (temporary : Bool) (c : Click) : PlayerRegistry R × Reaction :=
  let (g, p) := g.obtain id temporary
  let (reaction, p, canvas) := c.handle p g.canvas
  ({ g with canvas }.put p, reaction)

end PlayerRegistry

end VoxelEdit
