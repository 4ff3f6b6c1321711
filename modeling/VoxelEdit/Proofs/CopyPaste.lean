import VoxelEdit.Proofs.ClipboardLedger
import VoxelEdit.Proofs.RegionWalk

/-!
# A paste carries a selection over

A copy captures a region: each of its positions becomes a local position of the clipboard, at its
distance from the corner of the box (`Clipboard.get?_capture`). A paste adds the anchor to local
positions, and the anchor is the corner moved by as much as the player has moved
(`Clipboard.anchor_capture`). So the corner drops out, and with it the place of the player.

* `Transported`: a world that shows at each position of a region, moved by a shift, what another
  world shows at the position itself, and else what it showed before.
* `Workspace.paste_transports`: what a paste of a captured region does to any later world.
* `Workspace.get_cut`: what a cut leaves.
* `copy_paste_transports`: **a copy and a paste carry a selection over exactly, and a cut with a
  paste where it was cut from restores the world.**
-/

namespace VoxelEdit

variable {R : Type} [Radius R]

namespace Clipboard

/-! ## What a capture holds -/

section Capture

variable {r : Region R} (w : World) (player : Pos)

/-- A buffer of the size of a box has a cell for each position of the box. -/
theorem inside_of_mem_positions (hb : r.box.Ordered) {p : Pos} (hp : p ∈ r.positions) :
    (p - r.box.min).Inside (r.box.dims.sup (.splat 1)) := by
  obtain ⟨hx, hy, hz⟩ := hb
  have hbox : r.box.contains p = true := Box.mem_positions.1 (List.mem_filter.1 hp).1
  rw [Box.contains_iff] at hbox
  simp only [Pos.Inside, Pos.sub_x, Pos.sub_y, Pos.sub_z, Pos.sup, Pos.splat_x, Pos.splat_y,
    Pos.splat_z, Box.dims_x, Box.dims_y, Box.dims_z]
  omega

/-- What a ledger tells after entries were stored at the distances of positions from a corner. -/
theorem Ledger.get?_foldl_store {ps : List Pos} {corner : Pos} {what : Pos → Entry} {l : Ledger}
    (hin : ∀ p ∈ ps, (p - corner).Inside l.size) (q : Pos) :
    (ps.foldl (fun l p => l.store (p - corner) (what p)) l).get? q =
      if q + corner ∈ ps then some (what (q + corner)) else l.get? q := by
  induction ps generalizing l with
  | nil => rfl
  | cons p ps ih =>
    have hp := hin p List.mem_cons_self
    have hrest := ih (l := l.store (p - corner) (what p)) fun q hq => by
      rw [Ledger.size_store]
      exact hin q (List.mem_cons_of_mem p hq)
    have hq : q = p - corner ↔ q + corner = p := by
      constructor
      · rintro rfl
        ext <;> simp
      · rintro rfl
        ext <;> simp
    rw [List.foldl_cons, hrest, Ledger.get?_store]
    by_cases hps : q + corner ∈ ps
    · rw [if_pos hps, if_pos (List.mem_cons_of_mem p hps)]
    · rw [if_neg hps]
      by_cases hqp : q + corner = p
      · rw [if_pos ⟨hq.2 hqp, hp⟩, if_pos (hqp ▸ List.mem_cons_self), hqp]
      · rw [if_neg fun h => hqp (hq.1 h.1),
          if_neg fun h => (List.mem_cons.1 h).elim hqp hps]

/-- **What a captured region shows**: at the distance of each position from the corner what stood
there, and nothing else. -/
theorem get?_capture (hb : r.box.Ordered) (q : Pos) : (capture r w player).get? q =
    if q + r.box.min ∈ r.positions then some (w.get ⟨r.dim, q + r.box.min⟩) else none := by
  have hin : ∀ p ∈ r.positions,
      (p - r.box.min).Inside (Ledger.blank (r.box.dims.sup (.splat 1))).size :=
    fun p hp => inside_of_mem_positions hb hp
  rw [(Agrees.capture r w player).get?, Ledger.ofRegion, Ledger.get?_foldl_store hin]
  rfl

/-- The list of a captured region, apart from its order. -/
theorem capture_toList_perm (hb : r.box.Ordered) : (capture r w player).toList.Perm
    (r.positions.map fun p => (p - r.box.min, w.get ⟨r.dim, p⟩)) := by
  have hagrees := Agrees.capture r w player
  have hleft : (capture r w player).toList.Nodup := by
    refine (capture r w player).toList_pairwise.imp ?_
    rintro x y hxy rfl
    exact hxy rfl
  have hright : (r.positions.map fun p => (p - r.box.min, w.get ⟨r.dim, p⟩)).Nodup := by
    refine r.positions_sorted.nodup.map ?_
    intro p q hpq
    have hsub := congrArg (· + r.box.min) (Prod.mk.inj hpq).1
    have hback (p : Pos) : p - r.box.min + r.box.min = p := by ext <;> simp
    rw [← hback p, ← hback q]
    exact hsub
  rw [List.perm_ext_iff_of_nodup hleft hright]
  rintro ⟨q, e⟩
  rw [mem_toList_iff hagrees.coherent.toSolid, get?_capture w player hb, List.mem_map]
  constructor
  · intro h
    obtain ⟨hq, he⟩ := Option.ite_none_right_eq_some.1 h
    refine ⟨q + r.box.min, hq, ?_⟩
    rw [← Option.some.inj he]
    congr 1
    ext <;> simp
  · rintro ⟨p, hp, heq⟩
    obtain ⟨rfl, rfl⟩ := Prod.mk.inj heq
    have hback : p - r.box.min + r.box.min = p := by ext <;> simp
    rw [hback, if_pos hp]

/-- A captured region has as many filled cells as the region has positions. -/
theorem count_capture (hb : r.box.Ordered) : ((capture r w player).count : Int) = r.size := by
  have hcoherent := (Agrees.capture r w player).coherent
  rw [← hcoherent.length_toList, (capture_toList_perm w player hb).length_eq, List.length_map,
    Region.size_eq_length hb]

/-- **The anchor of a paste** is the corner of what was captured, moved as the player has moved. At
the origin it is as if the player had not moved. -/
theorem anchor_capture (q : Pos) (atOrigin : Bool) :
    (capture r w player).anchor q atOrigin =
      r.box.min + ((if atOrigin then player else q) - player) := by
  cases atOrigin
  · show q - (player - r.box.min) = _
    ext <;> simp <;> omega
  · show player - (player - r.box.min) = _
    ext <;> simp

/-- What a paste takes from a captured region. -/
theorem taken?_capture (hb : r.box.Ordered) (skipAir : Bool) (q : Pos) :
    (capture r w player).taken? skipAir q =
      if q + r.box.min ∈ r.positions ∧
        (skipAir && (w.get ⟨r.dim, q + r.box.min⟩).isAir) = false then
          some (w.get ⟨r.dim, q + r.box.min⟩) else none := by
  unfold taken?
  rw [get?_capture w player hb]
  by_cases hq : q + r.box.min ∈ r.positions
  · rw [if_pos hq, Option.filter_some]
    by_cases hskip : (skipAir && (w.get ⟨r.dim, q + r.box.min⟩).isAir) = true
    · simp [hskip]
    · simp [hskip, hq]
  · rw [if_neg hq, if_neg fun h => hq h.1]
    rfl

end Capture

end Clipboard

/-! ## What a paste does -/

/-- The world `after` shows at each position of a region, moved by a shift, what `w` shows at the
position itself, and elsewhere what `before` does. Where `w` is empty that may be passed over. -/
structure Transported (r : Region R) (w : World) (skipAir : Bool) (dim : Int) (shift : Pos)
    (before after : World) : Prop where
  moved : ∀ p ∈ r.positions, (skipAir && (w.get ⟨r.dim, p⟩).isAir) = false →
    after.get ⟨dim, p + shift⟩ = w.get ⟨r.dim, p⟩
  skipped : ∀ p ∈ r.positions, (skipAir && (w.get ⟨r.dim, p⟩).isAir) = true →
    after.get ⟨dim, p + shift⟩ = before.get ⟨dim, p + shift⟩
  elsewhere : ∀ t : Site, ¬(t.dim = dim ∧ t.pos - shift ∈ r.positions) →
    after.get t = before.get t

namespace Workspace

variable {ws : Workspace R} {r : Region R} {w : World} {player : Pos} {options : PasteOptions}
  (tools : EditTools) (site : Site)

/-- **What a paste of a captured region does**, and how many writes it makes. -/
theorem paste_transports (hb : r.box.Ordered) (ht : w.Tidy) (hw : ws.world.Free)
    (hm : ws.session.mask = none) (hc : ws.session.clipboard = .capture r w player)
    (hd : options.dryRun = false) :
    Transported r w options.skipAir site.dim
        ((if options.atOrigin then player else site.pos) - player) ws.world
        (ws.paste tools site options).1.world ∧
      (ws.paste tools site options).2 = .ok (r.positions.filter fun p =>
        !(options.skipAir && (w.get ⟨r.dim, p⟩).isAir)).length := by
  have hu : ws.session.clipboard.used = true := by
    rw [hc]
    rfl
  have hsolid : ws.session.clipboard.Solid := by
    rw [hc]
    exact (Clipboard.Agrees.capture r w player).coherent.toSolid
  set shift := (if options.atOrigin then player else site.pos) - player with hshift
  have hanchor : ws.session.clipboard.anchor site.pos options.atOrigin = r.box.min + shift := by
    rw [hc]
    exact Clipboard.anchor_capture w player site.pos options.atOrigin
  have hget (t : Site) : (ws.paste tools site options).1.world.get t =
      if t.dim = site.dim ∧ t.pos - shift ∈ r.positions ∧
          (options.skipAir && (w.get ⟨r.dim, t.pos - shift⟩).isAir) = false then
        w.get ⟨r.dim, t.pos - shift⟩ else ws.world.get t := by
    have hcorner : t.pos - (r.box.min + shift) + r.box.min = t.pos - shift := by
      ext <;> simp <;> omega
    rw [get_paste tools site hw hm hu hd hsolid, hanchor, hc,
      Clipboard.taken?_capture w player hb, hcorner]
    by_cases hdim : t.dim = site.dim
    · rw [if_pos hdim]
      by_cases hp : t.pos - shift ∈ r.positions ∧
          (options.skipAir && (w.get ⟨r.dim, t.pos - shift⟩).isAir) = false
      · rw [if_pos hp, if_pos ⟨hdim, hp⟩]
        exact ht _
      · rw [if_neg hp, if_neg fun h => hp h.2]
        rfl
    · rw [if_neg hdim, if_neg fun h => hdim h.1]
  have hback (p : Pos) : p + shift - shift = p := by ext <;> simp
  refine ⟨⟨?_, ?_, ?_⟩, ?_⟩
  · intro p hp hskip
    rw [hget, hback, if_pos ⟨rfl, hp, hskip⟩]
  · intro p hp hskip
    rw [hget, hback, if_neg]
    rintro ⟨-, -, hkeep⟩
    rw [hskip] at hkeep
    exact nomatch hkeep
  · intro t ht
    rw [hget, if_neg fun h => ht ⟨h.1, h.2.1⟩]
  · have hperm := (Clipboard.capture_toList_perm w player hb).filter fun x =>
      !(options.skipAir && x.2.isAir)
    rw [(paste_unmasked tools site hm hu hd).2, (World.writeAll_count hw _ _).1, hc]
    unfold Plan.placed
    rw [List.length_map, hperm.length_eq, List.filter_map, List.length_map]
    rfl

/-- A copy captures the region. -/
theorem copy_eq (hr : ws.session.region = some r) (player : Pos) : ws.copy player =
    ({ ws with session := { ws.session with clipboard := .capture r ws.world player } },
      .ok (Clipboard.capture r ws.world player).count) := by
  unfold copy
  rw [hr]

/-- A cut captures the region, whatever it writes after that. -/
theorem cut_eq (hr : ws.session.region = some r) (player : Pos) :
    (ws.cut player).1.session.clipboard = .capture r ws.world player ∧
      (ws.cut player).1.session.mask = ws.session.mask ∧
      (ws.cut player).1.world = (ws.world.writeAll r.dim (r.positions.map fun p => (p, .air))
        ws.session.mode).1 ∧
      (ws.cut player).2 = .ok (Clipboard.capture r ws.world player).count := by
  unfold cut
  rw [copy_eq hr player, hr]
  exact ⟨rfl, rfl, rfl, rfl⟩

/-- **What a cut leaves**: nothing at the positions of the region, and all else as it was. -/
theorem get_cut (hr : ws.session.region = some r) (hw : ws.world.Free) (player : Pos) (t : Site) :
    (ws.cut player).1.world.get t =
      if t.dim = r.dim ∧ t.pos ∈ r.positions then .air else ws.world.get t := by
  have hempty : ∀ x ∈ r.positions.map (fun p => (p, Entry.air)), x.2.kept = Entry.air := by
    intro x hx
    obtain ⟨p, -, rfl⟩ := List.mem_map.1 hx
    exact Entry.kept_air
  have hpositions : (r.positions.map fun p => (p, Entry.air)).map Prod.fst = r.positions := by
    rw [List.map_map]
    exact List.map_id _
  rw [(cut_eq hr player).2.2.1, World.get_writeAll hw (f := fun _ => .air) hempty, hpositions]

/-- **A cut and a paste where it was cut from restore the world.** -/
theorem get_cut_paste (hb : r.box.Ordered) (hr : ws.session.region = some r) (hw : ws.world.Free)
    (ht : ws.world.Tidy) (hm : ws.session.mask = none) (hdim : site.dim = r.dim)
    (ho : options.atOrigin = true) (hd : options.dryRun = false) (t : Site) :
    ((ws.cut player).1.paste tools site options).1.world.get t = ws.world.get t := by
  obtain ⟨hclipboard, hmask, hworld, -⟩ := cut_eq hr player
  have hfree : (ws.cut player).1.world.Free := by
    rw [hworld]
    exact hw.writeAll _ _
  obtain ⟨⟨hmoved, hskipped, helsewhere⟩, -⟩ :=
    paste_transports tools site hb ht hfree (hmask.trans hm) hclipboard hd
  have hzero (p : Pos) : p + ((if options.atOrigin then player else site.pos) - player) = p := by
    rw [ho]
    ext <;> simp
  by_cases hp : t.dim = r.dim ∧ t.pos ∈ r.positions
  · have hsite : t = ⟨site.dim, t.pos⟩ := by rw [hdim, ← hp.1]
    have hsource : ws.world.get ⟨r.dim, t.pos⟩ = ws.world.get t := by rw [← hp.1]
    by_cases hskip : (options.skipAir && (ws.world.get ⟨r.dim, t.pos⟩).isAir) = true
    · -- where nothing stood, the cut and the paste leave nothing
      have hkeep := hskipped t.pos hp.2 hskip
      rw [hzero, ← hsite] at hkeep
      have hair : (ws.world.get t).isAir = true := by
        rw [← hsource]
        exact (Bool.and_eq_true_iff.1 hskip).2
      have hplain := ht t
      rw [Entry.kept, if_pos hair] at hplain
      rw [hkeep, get_cut hr hw player, if_pos hp, hplain]
    · have hmove := hmoved t.pos hp.2 (Bool.eq_false_of_not_eq_true hskip)
      rw [hzero, ← hsite] at hmove
      rw [hmove, hsource]
  · have hback : t.pos - ((if options.atOrigin then player else site.pos) - player) = t.pos := by
      rw [ho]
      ext <;> simp
    rw [helsewhere t fun h => hp ⟨h.1.trans hdim, by rw [← hback]; exact h.2⟩, get_cut hr hw player,
      if_neg hp]

end Workspace

/-- **A copy and a paste carry a selection over exactly.** A copy of a region answers with its size.
A paste of it into any later world, for a player who has moved or at the origin, shows the content
of each position at that position moved along, and answers with the size; if what is empty is passed
over, the later world keeps what it has there. Nothing else changes. And a cut with a paste at the
origin restores the world. -/
theorem copy_paste_transports (tools : EditTools) {ws : Workspace R} {r : Region R}
    (hr : ws.session.region = some r) (hreached : r.Reached) (hw : ws.world.Made) (player : Pos) :
    ∃ n : Nat, (n : Int) = r.size ∧ (ws.copy player).2 = .ok n ∧
      (∀ (later : Workspace R) (site : Site) (options : PasteOptions), later.world.Free →
        later.session.mask = none →
        later.session.clipboard = (ws.copy player).1.session.clipboard → options.dryRun = false →
        Transported r ws.world options.skipAir site.dim
            ((if options.atOrigin then player else site.pos) - player) later.world
            (later.paste tools site options).1.world ∧
          (options.skipAir = false → (later.paste tools site options).2 = .ok n)) ∧
      (ws.cut player).2 = .ok n ∧
      ∀ (site : Site) (options : PasteOptions), ws.session.mask = none → site.dim = r.dim →
        options.atOrigin = true → options.dryRun = false →
        ∀ t, ((ws.cut player).1.paste tools site options).1.world.get t = ws.world.get t := by
  have hb : r.box.Ordered := hreached.sound.ordered
  have hsize := Clipboard.count_capture ws.world player hb
  have hcopy := Workspace.copy_eq hr player
  refine ⟨(Clipboard.capture r ws.world player).count, hsize, by rw [hcopy], ?_,
    (Workspace.cut_eq hr player).2.2.2, ?_⟩
  · intro later site options hfree hm hc hd
    rw [hcopy] at hc
    obtain ⟨htransported, hcount⟩ :=
      Workspace.paste_transports tools site hb hw.tidy hfree hm hc hd
    refine ⟨htransported, fun hskip => ?_⟩
    have hlength : r.positions.length = (Clipboard.capture r ws.world player).count := by
      have hpositions := Region.size_eq_length hb
      omega
    rw [hcount, hskip, ← hlength]
    simp
  · intro site options hm hdim ho hd t
    exact Workspace.get_cut_paste tools site hb hr hw.free hw.tidy hm hdim ho hd t

/-- A stone in a triangle is copied and pasted ten blocks further. A corner of the box that is no
part of the triangle keeps what stands there. -/
theorem copy_paste_transports_triangle :
    let tools : EditTools := ⟨.withSeed .flat 0, .standard⟩
    let stone : Entry := .ofBlock (.ofName "minecraft:stone")
    let r : Region Float := ⟨0, .polygon (.make [⟨0, 0⟩, ⟨4, 0⟩, ⟨0, 4⟩] 0 1)⟩
    let fresh : Session Float := .new .standard
    let ws : Workspace Float :=
      { session := { fresh with region := some r }
        canvas := .blank
        world := (World.empty.write ⟨0, ⟨1, 0, 1⟩⟩ stone .quiet).1
        sampling := ⟨.empty, .ofList []⟩ }
    let later := (ws.copy ⟨2, 5, 2⟩).1
    let after := (later.paste tools ⟨0, ⟨12, 5, 2⟩⟩ ⟨false, false, false, false⟩).1.world
    ws.session.region = some r ∧ r.Reached ∧ ws.world.Made ∧
      after.get ⟨0, ⟨11, 0, 1⟩⟩ = stone ∧
      after.get ⟨0, ⟨14, 0, 4⟩⟩ = later.world.get ⟨0, ⟨14, 0, 4⟩⟩ ∧
      ∀ t, ((ws.cut ⟨2, 5, 2⟩).1.paste tools ⟨0, .zero⟩ ⟨false, true, false, false⟩).1.world.get t =
        ws.world.get t := by
  intro tools stone r fresh ws later after
  have hreached : r.Reached :=
    .setVice ⟨0, 0, 4⟩ (.setVice ⟨4, 1, 0⟩ (.ofPoint .polygon 0 .zero) rfl) rfl
  have hw : ws.world.Made := .write _ _ _ .empty
  have hlater : later.world = ws.world := rfl
  have hstone : ws.world.get ⟨0, ⟨1, 0, 1⟩⟩ = stone := by
    show (World.empty.write ⟨0, ⟨1, 0, 1⟩⟩ stone .quiet).1.get _ = _
    rw [World.write_free World.Made.empty.free, World.get_put, if_pos rfl]
    rfl
  have hr : ws.session.region = some r := rfl
  obtain ⟨_, -, -, hpaste, -, hcut⟩ := copy_paste_transports tools hr hreached hw ⟨2, 5, 2⟩
  obtain ⟨htransported, -⟩ := hpaste later ⟨0, ⟨12, 5, 2⟩⟩ ⟨false, false, false, false⟩
    (hlater ▸ hw.free) rfl rfl rfl
  refine ⟨hr, hreached, hw, ?_, ?_, hcut _ _ rfl rfl rfl rfl⟩
  · have hmoved := htransported.moved ⟨1, 0, 1⟩ (by decide) rfl
    rw [hstone] at hmoved
    exact hmoved
  · exact htransported.elsewhere ⟨0, ⟨14, 0, 4⟩⟩ (by decide)

end VoxelEdit
