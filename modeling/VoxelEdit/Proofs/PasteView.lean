import VoxelEdit.Proofs.ClipboardCells
import VoxelEdit.Proofs.EditOutcome

/-!
# What a paste shows

Without a mask the plan of a paste is the list of the clipboard's cells, moved to the anchor
(`Plan.ofClipboard_unmasked`); cells without content may be passed over. So the world shows
afterwards, at each position of the dimension, what the paste takes there from the clipboard
(`Clipboard.taken?`), and what it showed before where the paste takes nothing
(`Workspace.get_paste`).
-/

namespace VoxelEdit

/-- What a paste takes from a local position: the entry there, unless it is without content and such
entries are passed over. -/
def Clipboard.taken? (c : Clipboard) (skipAir : Bool) (p : Pos) : Option Entry :=
  (c.get? p).filter fun e => !(skipAir && e.isAir)

@[simp] theorem Clipboard.taken?_false (c : Clipboard) (p : Pos) : c.taken? false p = c.get? p := by
  unfold taken?
  cases c.get? p <;> rfl

namespace Plan

/-- If choosing keeps the state and always succeeds, gathering collects all that is chosen. -/
theorem gather_eq {α : Type} {choose : α → Sampling (Option (Pos × Entry))}
    {g : α → Option (Pos × Entry)} (h : ∀ a s, choose a s = (.ok (g a), s)) (items : List α)
    (taken : Plan) (s : SampleState) :
    gather choose items taken s = (.ok (taken.reverse ++ items.filterMap g), s) := by
  induction items generalizing taken with
  | nil =>
    rw [gather, List.filterMap_nil, List.append_nil]
    rfl
  | cons a items ih =>
    cases hg : g a with
    | none =>
      have hstep : gather choose (a :: items) taken s = gather choose items taken s := by
        rw [gather]
        simp only [bind, ExceptT.bind, ExceptT.mk, ExceptT.bindCont, StateT.bind, h, hg]
      rw [hstep, List.filterMap_cons_none hg]
      exact ih taken
    | some write =>
      have hstep : gather choose (a :: items) taken s =
          gather choose items (write :: taken) s := by
        rw [gather]
        simp only [bind, ExceptT.bind, ExceptT.mk, ExceptT.bindCont, StateT.bind, h, hg]
      rw [hstep, List.filterMap_cons_some hg, ih, List.reverse_cons, List.append_assoc,
        List.singleton_append]

/-- The cells of a clipboard at an anchor. Those without content may be passed over. -/
def placed (c : Clipboard) (skipAir : Bool) (anchor : Pos) : Plan :=
  (c.toList.filter fun x => !(skipAir && x.2.isAir)).map fun x => (anchor + x.1, x.2)

/-- **The plan of a paste without a mask**: every cell that is not passed over, moved to the
anchor. -/
theorem ofClipboard_unmasked (fs : Functions) (c : Clipboard) (skipAir : Bool) (anchor : Pos)
    (s : SampleState) :
    ofClipboard fs none c skipAir anchor s = (.ok (placed c skipAir anchor), s) := by
  set g : Pos × Entry → Option (Pos × Entry) := fun x =>
    if skipAir && x.2.isAir then none else some (anchor + x.1, x.2) with hg
  have hchosen (items : List (Pos × Entry)) : items.filterMap g =
      (items.filter fun x => !(skipAir && x.2.isAir)).map fun x => (anchor + x.1, x.2) := by
    induction items with
    | nil => rfl
    | cons x items ih =>
      by_cases hx : (skipAir && x.2.isAir) = true
      · rw [List.filterMap_cons_none (by rw [hg]; exact if_pos hx), ih,
          List.filter_cons_of_neg (by rw [hx]; decide)]
      · rw [List.filterMap_cons_some (by rw [hg]; exact if_neg hx), ih,
          List.filter_cons_of_pos (by rw [Bool.eq_false_of_not_eq_true hx]; decide), List.map_cons]
  unfold ofClipboard placed
  simp only [bind, ExceptT.bind, ExceptT.mk, ExceptT.bindCont, StateT.bind, checkMask]
  refine (gather_eq (g := g) ?_ _ _ _).trans ?_
  · intro x s
    rw [hg]
    by_cases hx : (skipAir && x.2.isAir) = true
    · simp only [if_pos hx]
      rfl
    · simp only [if_neg hx]
      rfl
  · rw [hchosen, List.reverse_nil, List.nil_append]

end Plan

namespace Workspace

variable {R : Type} [Radius R] (tools : EditTools) {ws : Workspace R} (site : Site)
  {options : PasteOptions}

/-- A paste of a used clipboard without a mask writes every cell that is not passed over. -/
theorem paste_unmasked (hm : ws.session.mask = none) (hu : ws.session.clipboard.used = true)
    (hd : options.dryRun = false) :
    let plan := Plan.placed ws.session.clipboard options.skipAir
      (ws.session.clipboard.anchor site.pos options.atOrigin)
    (ws.paste tools site options).1.world =
        (ws.world.writeAll site.dim plan ws.session.mode).1 ∧
      (ws.paste tools site options).2 =
        .ok (ws.world.writeAll site.dim plan ws.session.mode).2 := by
  have hplan := Plan.ofClipboard_unmasked tools.functions ws.session.clipboard options.skipAir
    (ws.session.clipboard.anchor site.pos options.atOrigin) ws.sampling
  unfold paste
  simp only [hu, hm, hd, Bool.not_true, Bool.false_eq_true, if_false]
  unfold perform
  rw [hplan]
  cases options.select <;> exact ⟨rfl, rfl⟩

/-- **What a paste shows.** In its dimension the world shows what the clipboard has there and does
not pass over, as a world keeps it; where there is nothing such, and in other dimensions, it shows
what it did. -/
theorem get_paste (hw : ws.world.Free) (hm : ws.session.mask = none)
    (hu : ws.session.clipboard.used = true) (hd : options.dryRun = false)
    (hc : ws.session.clipboard.Solid) (t : Site) :
    (ws.paste tools site options).1.world.get t =
      if t.dim = site.dim then
        ((ws.session.clipboard.taken? options.skipAir (t.pos -
          ws.session.clipboard.anchor site.pos options.atOrigin)).map Entry.kept).getD
            (ws.world.get t)
      else ws.world.get t := by
  set c := ws.session.clipboard with hcdef
  set anchor := c.anchor site.pos options.atOrigin with hanchor
  -- what the plan has, and what it says at a position
  have hcells {p : Pos} {e : Entry} : (p, e) ∈ c.toList.filter (fun x =>
      !(options.skipAir && x.2.isAir)) ↔ c.taken? options.skipAir p = some e := by
    rw [List.mem_filter, Clipboard.mem_toList_iff hc, Clipboard.taken?, Option.filter_eq_some_iff]
  set f : Pos → Entry := fun p =>
    ((c.taken? options.skipAir (p - anchor)).map Entry.kept).getD .air with hf
  have hplan : ∀ x ∈ Plan.placed c options.skipAir anchor, x.2.kept = f x.1 := by
    intro x hx
    obtain ⟨⟨p, e⟩, hmem, rfl⟩ := List.mem_map.1 hx
    have hget := hcells.1 hmem
    have hp : anchor + p - anchor = p := by ext <;> simp
    simp [hf, hp, hget]
  have hmem : t.pos ∈ (Plan.placed c options.skipAir anchor).map Prod.fst ↔
      ∃ e, c.taken? options.skipAir (t.pos - anchor) = some e := by
    unfold Plan.placed
    rw [List.map_map, List.mem_map]
    constructor
    · rintro ⟨⟨p, e⟩, hpe, heq⟩
      have hp : t.pos - anchor = p := by
        rw [← heq]; ext <;> simp
      exact ⟨e, by rw [hp]; exact hcells.1 hpe⟩
    · rintro ⟨e, he⟩
      exact ⟨(t.pos - anchor, e), hcells.2 he, by ext <;> simp⟩
  rw [(paste_unmasked tools site hm hu hd).1, World.get_writeAll hw hplan]
  by_cases hdim : t.dim = site.dim
  · rw [if_pos hdim]
    cases he : c.taken? options.skipAir (t.pos - anchor) with
    | none =>
      rw [if_neg]
      · rfl
      · rintro ⟨-, h⟩
        obtain ⟨e, he'⟩ := hmem.1 h
        rw [he] at he'
        exact nomatch he'
    | some e =>
      rw [if_pos ⟨hdim, hmem.2 ⟨e, he⟩⟩]
      simp [hf, he]
  · rw [if_neg hdim, if_neg fun h => hdim h.1]

end Workspace

end VoxelEdit
