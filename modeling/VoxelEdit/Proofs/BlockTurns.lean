import VoxelEdit.Proofs.ClipboardMoves
import VoxelEdit.Proofs.WrittenNumbers

/-!
# What steps do to the properties of a block

A step reads some properties of a block and writes what it makes of them. Under each key the first
entry counts, both for what is read and for what is written.

* `Block.revise`: the block with each property replaced by a function of its key and value. Two
  revisions one after the other are one (`revise_revise`).
* `Bearing`: what a property says of directions: a face, an axis, a number of sixteenths, or an upper
  or lower half. A step moves bearings (`Step.bearing`).
* `Step.block_eq`: **a step revises a block by its bearings.**
* `Step.foldl_block_congr`: so steps that move all bearings alike change blocks alike.
-/

namespace VoxelEdit

open Number

namespace Block

/-! ## Revisions -/

/-- Properties with the value under each key replaced; of entries with the same key only the first. -/
def reviseIn (F : String → String → String) : List (String × String) → List (String × String)
  | [] => []
  | (k, v) :: rest => (k, F k v) :: reviseIn (fun k' v' => if k' = k then v' else F k' v') rest

/-- The block with revised properties. -/
def revise (b : Block) (F : String → String → String) : Block :=
  { b with properties := reviseIn F b.properties }

variable {F G : String → String → String} {key v w : String} {ps : List (String × String)} {b : Block}

theorem lookup_cons_self (k v : String) (rest : List (String × String)) :
    ((k, v) :: rest).lookup k = some v := by
  rw [List.lookup_cons, beq_self_eq_true]

theorem lookup_cons_ne {k : String} (h : key ≠ k) (v : String) (rest : List (String × String)) :
    ((k, v) :: rest).lookup key = rest.lookup key := by
  rw [List.lookup_cons, beq_eq_false_iff_ne.2 h]

theorem lookup_reviseIn (F : String → String → String) (ps : List (String × String)) (key : String) :
    (reviseIn F ps).lookup key = (ps.lookup key).map (F key) := by
  induction ps generalizing F with
  | nil => rfl
  | cons e rest ih =>
    obtain ⟨k, v⟩ := e
    rw [reviseIn]
    by_cases h : key = k
    · subst h
      rw [lookup_cons_self, lookup_cons_self]
      rfl
    · rw [lookup_cons_ne h, lookup_cons_ne h, ih]
      simp only [h, if_false]

theorem reviseIn_reviseIn (F G : String → String → String) (ps : List (String × String)) :
    reviseIn G (reviseIn F ps) = reviseIn (fun k v => G k (F k v)) ps := by
  induction ps generalizing F G with
  | nil => rfl
  | cons e rest ih =>
    obtain ⟨k, v⟩ := e
    rw [reviseIn, reviseIn, reviseIn, ih]
    congr 2
    funext k' v'
    by_cases h : k' = k
    · simp only [h, if_true]
    · simp only [h, if_false]

/-- Only what the properties say counts. -/
theorem reviseIn_congr (h : ∀ k v, ps.lookup k = some v → F k v = G k v) :
    reviseIn F ps = reviseIn G ps := by
  induction ps generalizing F G with
  | nil => rfl
  | cons e rest ih =>
    obtain ⟨k, v⟩ := e
    rw [reviseIn, reviseIn, h k v (lookup_cons_self k v rest)]
    refine congrArg _ (ih fun k' v' hv' => ?_)
    by_cases hk : k' = k
    · simp only [hk, if_true]
    · simp only [hk, if_false]
      refine h k' v' ?_
      rw [lookup_cons_ne hk, hv']

theorem reviseIn_id (ps : List (String × String)) : reviseIn (fun _ v => v) ps = ps := by
  induction ps with
  | nil => rfl
  | cons e rest ih =>
    rw [reviseIn]
    simp only [ite_self]
    rw [ih]

theorem reviseIn_self (h : ∀ k v, ps.lookup k = some v → F k v = v) : reviseIn F ps = ps :=
  (reviseIn_congr h).trans (reviseIn_id ps)

/-- Setting a key that is there revises its value. -/
theorem setIn_eq_reviseIn (h : ps.lookup key = some v) (w : String) :
    setIn ps key w = reviseIn (fun k u => if k = key then w else u) ps := by
  induction ps with
  | nil => exact nomatch h
  | cons e rest ih =>
    obtain ⟨k, u⟩ := e
    rw [setIn, reviseIn]
    by_cases hk : k = key
    · subst hk
      rw [if_pos rfl, if_pos rfl]
      -- the rest is left as it is
      refine congrArg _ (reviseIn_self fun k' v' _ => ?_).symm
      split <;> rfl
    · rw [if_neg hk, if_neg hk]
      rw [lookup_cons_ne (Ne.symm hk)] at h
      rw [ih h]
      refine congrArg _ (reviseIn_congr fun k' v' _ => ?_)
      by_cases hk' : k' = k
      · simp only [hk', hk, if_true, if_false]
      · simp only [hk', if_false]

theorem get?_revise (b : Block) (F : String → String → String) (key : String) :
    (b.revise F).get? key = (b.get? key).map (F key) := lookup_reviseIn F b.properties key

/-- **Two revisions are one.** -/
theorem revise_revise (b : Block) (F G : String → String → String) :
    (b.revise F).revise G = b.revise fun k v => G k (F k v) :=
  congrArg (fun properties => { b with properties }) (reviseIn_reviseIn F G b.properties)

theorem revise_congr (h : ∀ k v, b.get? k = some v → F k v = G k v) : b.revise F = b.revise G :=
  congrArg (fun properties => { b with properties }) (reviseIn_congr h)

theorem revise_self (h : ∀ k v, b.get? k = some v → F k v = v) : b.revise F = b :=
  congrArg (fun properties => { b with properties }) (reviseIn_self h)

theorem set_revise (h : b.get? key = some v) (F : String → String → String) (w : String) :
    (b.revise F).set key w = b.revise fun k u => if k = key then w else F k u := by
  have hget : (b.revise F).get? key = some (F key v) := by
    rw [get?_revise, h]
    rfl
  have hset : (b.revise F).set key w = (b.revise F).revise fun k u => if k = key then w else u :=
    congrArg (fun properties => { b with properties }) (setIn_eq_reviseIn hget w)
  rw [hset, revise_revise]

/-- Writes what `g` makes of the value under a key of the block, if it makes anything of it. -/
def amend (b target : Block) (key : String) (g : String → Option String) : Block :=
  match b.get? key |>.bind g with
  | some w => target.set key w
  | none => target

/-- Amending a block that was revised under other keys is a revision. -/
theorem amend_revise (hF : ∀ v, F key v = v) (g : String → Option String) :
    b.amend (b.revise F) key g = b.revise fun k u => if k = key then (g u).getD u else F k u := by
  unfold amend
  cases hkey : b.get? key with
  | none =>
    refine revise_congr fun k u hu => ?_
    have hne : k ≠ key := by
      rintro rfl
      rw [hkey] at hu
      exact nomatch hu
    rw [if_neg hne]
  | some v =>
    rw [Option.bind_some]
    cases hg : g v with
    | none =>
      refine revise_congr fun k u hu => ?_
      by_cases hk : k = key
      · subst hk
        obtain rfl : v = u := Option.some.inj (hkey.symm.trans hu)
        rw [if_pos rfl, hg, hF, Option.getD_none]
      · rw [if_neg hk]
    | some w =>
      show (b.revise F).set key w = _
      rw [set_revise hkey]
      refine revise_congr fun k u hu => ?_
      by_cases hk : k = key
      · subst hk
        obtain rfl : v = u := Option.some.inj (hkey.symm.trans hu)
        rw [if_pos rfl, if_pos rfl, hg, Option.getD_some]
      · rw [if_neg hk, if_neg hk]

theorem withFacing_eq (f : Pos → Pos) (b target : Block) : withFacing f b target =
    b.amend target "facing" fun v =>
      (Facing.ofName? v).bind fun facing => (Facing.ofStep? (f facing.step)).map Facing.name := by
  unfold withFacing amend
  cases b.get? "facing" with
  | none => rfl
  | some v =>
    dsimp only [Option.bind_some]
    cases Facing.ofName? v with
    | none => rfl
    | some facing =>
      dsimp only [Option.bind_some]
      cases Facing.ofStep? (f facing.step) <;> rfl

theorem withAxis_eq (g : Axis → Axis) (b target : Block) :
    (match b.get? "axis" |>.bind Axis.ofName? with
      | some own => target.set "axis" (g own).name
      | none => target) =
    b.amend target "axis" fun v => (Axis.ofName? v).map fun own => (g own).name := by
  unfold amend
  cases b.get? "axis" with
  | none => rfl
  | some v =>
    dsimp only [Option.bind_some]
    cases Axis.ofName? v <;> rfl

theorem withRotation_eq (f : Int → Int) (b target : Block) : withRotation f b target =
    b.amend target "rotation" fun v =>
      (integer? minInt32 maxInt32 v.toList).map fun r => toString (f r) := by
  unfold withRotation rotation? amend
  cases b.get? "rotation" with
  | none => rfl
  | some v =>
    have hbind : (some v >>= fun v => integer? minInt32 maxInt32 v.toList) =
        integer? minInt32 maxInt32 v.toList := rfl
    rw [hbind]
    dsimp only [Option.bind_some]
    cases integer? minInt32 maxInt32 v.toList <;> rfl

theorem withHalf_eq (b target : Block) (key : String) : withHalf b target key =
    b.amend target key fun v => if v = "top" then some "bottom" else if v = "bottom" then some "top"
      else none := by
  unfold withHalf amend
  cases b.get? key with
  | none => rfl
  | some v =>
    dsimp only [Option.bind_some]
    by_cases htop : v = "top"
    · subst htop
      rfl
    · by_cases hbottom : v = "bottom"
      · subst hbottom
        rfl
      · rw [if_neg htop, if_neg hbottom]
        split
        · rename_i h
          exact absurd (Option.some.inj h) htop
        · rename_i h
          exact absurd (Option.some.inj h) hbottom
        · rfl

end Block

/-! ## Bearings -/

theorem Facing.ofName?_name (f : Facing) : Facing.ofName? f.name = some f := by
  cases f <;> decide

theorem Facing.name_of_ofName? {v : String} {f : Facing} (h : Facing.ofName? v = some f) :
    f.name = v := by
  have hf := List.find?_some h
  exact beq_iff_eq.1 hf

theorem Axis.ofName?_name (a : Axis) : Axis.ofName? a.name = some a := by
  cases a <;> decide

theorem Axis.name_of_ofName? {v : String} {a : Axis} (h : Axis.ofName? v = some a) : a.name = v := by
  have ha := List.find?_some h
  exact beq_iff_eq.1 ha

/-- The sixteen rotations are read as they are written. -/
theorem rotation_reads {r : Int} (h0 : 0 ≤ r) (h16 : r < 16) :
    integer? minInt32 maxInt32 (toString r).toList = some r :=
  integer?_toString (Int.le_trans (by decide) h0) (Int.le_trans (Int.le_of_lt h16) (by decide))

/-- The half that a text names, the upper one or not. -/
def halfOf? (v : String) : Option Bool :=
  if v = "top" then some true else if v = "bottom" then some false else none

/-- The name of a half. -/
def halfName (upper : Bool) : String := if upper then "top" else "bottom"

theorem halfOf?_halfName (upper : Bool) : halfOf? (halfName upper) = some upper := by
  cases upper <;> decide

theorem halfName_of_halfOf? {v : String} {upper : Bool} (h : halfOf? v = some upper) :
    halfName upper = v := by
  unfold halfOf? at h
  split_ifs at h with htop hbottom
  · rw [← Option.some.inj h]
    exact htop.symm
  · rw [← Option.some.inj h]
    exact hbottom.symm

/-- What a property says of directions. -/
inductive Bearing where
  | facing (f : Facing)
  | axis (a : Axis)
  | rotation (r : Int)
  | half (upper : Bool)

namespace Bearing

/-- The bearing that a property stands for, if any. -/
def read? (key v : String) : Option Bearing :=
  if key = "facing" then (Facing.ofName? v).map facing
  else if key = "axis" then (Axis.ofName? v).map axis
  else if key = "rotation" then (integer? minInt32 maxInt32 v.toList).map rotation
  else if key = "half" ∨ key = "type" then (halfOf? v).map half
  else none

/-- The text of a bearing. -/
def text : Bearing → String
  | facing f => f.name
  | axis a => a.name
  | rotation r => toString r
  | half upper => halfName upper

/-- A rotation is by sixteenths of a full turn. -/
def Small : Bearing → Prop
  | rotation r => 0 ≤ r ∧ r < 16
  | _ => True

/-- A property that says nothing of directions, or says it in the text that is written for it. -/
def Written (key v : String) : Prop := ∀ m, read? key v = some m → m.Small ∧ m.text = v

/-- Each sort of bearing has its keys. -/
theorem key_of_read? {key v : String} (m : Bearing) (h : read? key v = some m) :
    match m with
    | facing _ => key = "facing"
    | axis _ => key = "axis"
    | rotation _ => key = "rotation"
    | half _ => key = "half" ∨ key = "type" := by
  unfold read? at h
  split_ifs at h with hfacing haxis hrotation hhalf
  all_goals
    obtain ⟨-, -, rfl⟩ := Option.map_eq_some_iff.1 h
    assumption

end Bearing

namespace Clipboard.Step

/-- What a step makes of a bearing. -/
def bearing (m : Bearing) : Step → Bearing
  | turn axis =>
    match m with
    | .facing f => .facing ((Facing.ofStep? (f.step.turnVector axis)).getD f)
    | .axis own =>
      .axis (if own = axis.plane.1 then axis.plane.2 else if own = axis.plane.2 then axis.plane.1 else own)
    | .rotation r => .rotation (if axis = .y then (r + 12).tmod 16 else r)
    | .half upper => .half upper
  | mirror axis =>
    match m with
    | .facing f => .facing ((Facing.ofStep? (f.step.mirrorVector axis)).getD f)
    | .axis own => .axis own
    | .rotation r => .rotation (match axis with
      | .x => (16 - r).tmod 16
      | .y => r
      | .z => (24 - r).tmod 16)
    | .half upper => .half (if axis = .y then !upper else upper)

/-- What a step makes of a property. -/
def value (s : Step) (key v : String) : String :=
  match Bearing.read? key v with
  | some m => (s.bearing m).text
  | none => v

variable {s : Step} {m : Bearing} {key v : String}

/-- A quarter turn and the mirrors keep to the sixteen rotations. -/
theorem tmod_sixteen {r : Int} (h : 0 ≤ r) : r.tmod 16 = r % 16 := Int.tmod_eq_emod_of_nonneg h

theorem bearing_small (hm : m.Small) : (s.bearing m).Small := by
  have hmod {r : Int} (h : 0 ≤ r) : 0 ≤ r.tmod 16 ∧ r.tmod 16 < 16 := by
    rw [tmod_sixteen h]
    omega
  cases m with
  | facing f | axis a | half upper => cases s <;> trivial
  | rotation r =>
    obtain ⟨h0, h16⟩ := hm
    cases s with
    | turn axis =>
      show 0 ≤ (if axis = .y then (r + 12).tmod 16 else r) ∧
        (if axis = .y then (r + 12).tmod 16 else r) < 16
      split
      · exact hmod (by omega)
      · exact ⟨h0, h16⟩
    | mirror axis =>
      cases axis with
      | x => exact hmod (by omega)
      | y => exact ⟨h0, h16⟩
      | z => exact hmod (by omega)

/-- What a step writes is read as the bearing that was written. -/
theorem read?_bearing (h : Bearing.read? key v = some m) (hm : m.Small) :
    Bearing.read? key (s.bearing m).text = some (s.bearing m) := by
  have hsmall := bearing_small (s := s) hm
  unfold Bearing.read? at h ⊢
  split_ifs at h ⊢ with hfacing haxis hrotation hhalf
  · obtain ⟨f, -, rfl⟩ := Option.map_eq_some_iff.1 h
    cases s <;> exact congrArg (Option.map _) (Facing.ofName?_name _)
  · obtain ⟨a, -, rfl⟩ := Option.map_eq_some_iff.1 h
    cases s <;> exact congrArg (Option.map _) (Axis.ofName?_name _)
  · obtain ⟨r, -, rfl⟩ := Option.map_eq_some_iff.1 h
    cases s <;> exact congrArg (Option.map _) (rotation_reads hsmall.1 hsmall.2)
  · obtain ⟨upper, -, rfl⟩ := Option.map_eq_some_iff.1 h
    cases s <;> exact congrArg (Option.map _) (halfOf?_halfName _)

end Clipboard.Step

/-! ## Blocks -/

/-- A block whose rotation is no number, or one of the sixteen, written without sign and zeros. -/
def Block.PlainRotation (b : Block) : Prop :=
  ∀ v, b.get? "rotation" = some v →
    integer? minInt32 maxInt32 v.toList = none ∨ ∃ n : Nat, n < 16 ∧ v = toString n

/-- All properties of such a block are written as they are read. -/
theorem Block.PlainRotation.written {b : Block} (hb : b.PlainRotation) {key v : String}
    (hv : b.get? key = some v) : Bearing.Written key v := by
  intro m hm
  unfold Bearing.read? at hm
  split_ifs at hm with hfacing haxis hrotation hhalf
  · obtain ⟨f, hf, rfl⟩ := Option.map_eq_some_iff.1 hm
    exact ⟨trivial, Facing.name_of_ofName? hf⟩
  · obtain ⟨a, ha, rfl⟩ := Option.map_eq_some_iff.1 hm
    exact ⟨trivial, Axis.name_of_ofName? ha⟩
  · obtain ⟨r, hr, rfl⟩ := Option.map_eq_some_iff.1 hm
    subst hrotation
    rcases hb v hv with hnone | ⟨n, hn, rfl⟩
    · rw [hnone] at hr
      exact nomatch hr
    · have hread := rotation_reads (r := n) (by omega) (by omega)
      have htext : toString (n : Int) = toString n := rfl
      rw [htext, hr] at hread
      obtain rfl := Option.some.inj hread
      exact ⟨⟨by omega, by omega⟩, htext⟩
  · obtain ⟨upper, hupper, rfl⟩ := Option.map_eq_some_iff.1 hm
    exact ⟨trivial, halfName_of_halfOf? hupper⟩

namespace Clipboard.Step

variable {s : Step} {b : Block} {key v : String} {m : Bearing}

/-- What a step makes of a property, by what is read under its key. -/
theorem value_eq {α : Type} (mk : α → Bearing) (o : Option α) (h : Bearing.read? key v = o.map mk) :
    s.value key v = (o.map fun x => (s.bearing (mk x)).text).getD v := by
  unfold value
  rw [h]
  cases o <;> rfl

/-- What a step writes under `facing`. -/
theorem value_facing (f : Pos → Pos) (hs : ∀ d : Facing, s.bearing (.facing d) =
      .facing ((Facing.ofStep? (f d.step)).getD d)) (v : String) :
    (((Facing.ofName? v).bind fun d => (Facing.ofStep? (f d.step)).map Facing.name).getD v) =
      s.value "facing" v := by
  rw [value_eq .facing (Facing.ofName? v) rfl]
  cases hd : Facing.ofName? v with
  | none => rfl
  | some d =>
    rw [Option.map_some, hs]
    show _ = ((Facing.ofStep? (f d.step)).getD d).name
    rw [Option.bind_some]
    cases Facing.ofStep? (f d.step) with
    | none => exact (Facing.name_of_ofName? hd).symm
    | some d' => rfl

/-- What a quarter turn writes under `axis`. -/
theorem value_axis (axis : Axis) (v : String) :
    (((Axis.ofName? v).map fun own => (if own = axis.plane.1 then axis.plane.2
      else if own = axis.plane.2 then axis.plane.1 else own).name).getD v) =
      (turn axis).value "axis" v := by
  rw [value_eq .axis (Axis.ofName? v) rfl]
  rfl

/-- What a step writes under `rotation`. -/
theorem value_rotation (f : Int → Int) (hs : ∀ r : Int, s.bearing (.rotation r) = .rotation (f r))
    (v : String) :
    (((integer? minInt32 maxInt32 v.toList).map fun r => toString (f r)).getD v) =
      s.value "rotation" v := by
  rw [value_eq .rotation (integer? minInt32 maxInt32 v.toList) rfl]
  simp only [hs]
  rfl

/-- What a mirror along the vertical writes under `half` and `type`. -/
theorem value_half (hkey : key = "half" ∨ key = "type") (v : String) :
    ((if v = "top" then some "bottom" else if v = "bottom" then some "top" else none).getD v) =
      (mirror .y).value key v := by
  have hread : Bearing.read? key v = (halfOf? v).map .half := by
    rcases hkey with rfl | rfl <;> rfl
  rw [value_eq _ _ hread]
  unfold halfOf?
  split_ifs <;> rfl

/-- What a step makes of the properties under some keys. -/
def valueAt (s : Step) (keys : List String) (key v : String) : String :=
  if key ∈ keys then s.value key v else v

/-- Amending one key more. -/
theorem amend_valueAt {keys : List String} (hkey : key ∉ keys) {g : String → Option String}
    (hg : ∀ v, (g v).getD v = s.value key v) :
    b.amend (b.revise (s.valueAt keys)) key g = b.revise (s.valueAt (key :: keys)) := by
  rw [Block.amend_revise (F := s.valueAt keys) fun v => if_neg hkey]
  refine Block.revise_congr fun k v _ => ?_
  unfold valueAt
  by_cases hk : k = key
  · subst hk
    rw [if_pos rfl, if_pos List.mem_cons_self, hg]
  · simp only [hk, if_false, List.mem_cons, false_or]

theorem revise_valueAt_nil : b.revise (s.valueAt []) = b :=
  Block.revise_self fun _ _ _ => if_neg List.not_mem_nil

/-- The other keys say nothing that the step changes. -/
theorem revise_valueAt (hb : b.PlainRotation) {keys : List String}
    (h : ∀ k v m, k ∉ keys → Bearing.read? k v = some m → s.bearing m = m) :
    b.revise (s.valueAt keys) = b.revise s.value := by
  refine Block.revise_congr fun k v hv => ?_
  unfold valueAt
  by_cases hk : k ∈ keys
  · rw [if_pos hk]
  · rw [if_neg hk]
    unfold value
    cases hread : Bearing.read? k v with
    | none => rfl
    | some m =>
      have htext := (hb.written hv m hread).2
      rw [← h k v m hk hread] at htext
      exact htext.symm

theorem withFacing_valueAt (f : Pos → Pos) (hs : ∀ d : Facing, s.bearing (.facing d) =
      .facing ((Facing.ofStep? (f d.step)).getD d)) :
    b.withFacing f b = b.revise (s.valueAt ["facing"]) := by
  have h : b.amend (b.revise (s.valueAt [])) _ _ = _ := amend_valueAt List.not_mem_nil (value_facing f hs)
  rw [revise_valueAt_nil] at h
  rw [Block.withFacing_eq]
  exact h

/-- A quarter turn revises a block. -/
theorem turn_eq_revise (hb : b.PlainRotation) (axis : Axis) :
    b.turn axis = b.revise (turn axis).value := by
  have hfacing : b.withFacing (Pos.turnVector · axis) b = b.revise ((turn axis).valueAt ["facing"]) :=
    withFacing_valueAt _ fun _ => rfl
  have haxis : (match b.get? "axis" |>.bind Axis.ofName? with
      | some own => (b.revise ((turn axis).valueAt ["facing"])).set "axis"
        (if own = axis.plane.1 then axis.plane.2 else if own = axis.plane.2 then axis.plane.1 else own).name
      | none => b.revise ((turn axis).valueAt ["facing"])) =
      b.revise ((turn axis).valueAt ["axis", "facing"]) := by
    rw [Block.withAxis_eq]
    exact amend_valueAt (by decide) (value_axis axis)
  have hturn : b.turn axis = if axis = .y then
      Block.withRotation (fun r => (r + 12).tmod 16) b (b.revise ((turn axis).valueAt ["axis", "facing"]))
      else b.revise ((turn axis).valueAt ["axis", "facing"]) := by
    rw [← haxis, ← hfacing]
    rfl
  rw [hturn]
  split
  · rename_i hy
    subst hy
    rw [Block.withRotation_eq, amend_valueAt (by decide) (value_rotation _ fun _ => rfl)]
    refine revise_valueAt hb fun k v m hk hm => ?_
    have hkey := m.key_of_read? hm
    cases m with
    | facing | axis | rotation => simp [hkey] at hk
    | half upper => rfl
  · rename_i hy
    refine revise_valueAt hb fun k v m hk hm => ?_
    have hkey := m.key_of_read? hm
    cases m with
    | facing | axis => simp [hkey] at hk
    | rotation r => exact congrArg Bearing.rotation (if_neg hy)
    | half upper => rfl

/-- A mirror revises a block. -/
theorem mirror_eq_revise (hb : b.PlainRotation) (axis : Axis) :
    b.mirror axis = b.revise (mirror axis).value := by
  have hfacing : b.withFacing (Pos.mirrorVector · axis) b =
      b.revise ((mirror axis).valueAt ["facing"]) := withFacing_valueAt _ fun _ => rfl
  have hlevel (f : Int → Int) (hf : ∀ r, (mirror axis).bearing (.rotation r) = .rotation (f r))
      (hhalf : ∀ upper, (mirror axis).bearing (.half upper) = .half upper) :
      Block.withRotation f b (b.withFacing (Pos.mirrorVector · axis) b) =
        b.revise (mirror axis).value := by
    rw [hfacing, Block.withRotation_eq, amend_valueAt (by decide) (value_rotation f hf)]
    refine revise_valueAt hb fun k v m hk hm => ?_
    have hkey := m.key_of_read? hm
    cases m with
    | facing | rotation => simp [hkey] at hk
    | axis own => rfl
    | half upper => exact hhalf upper
  cases axis with
  | x => exact hlevel _ (fun _ => rfl) fun _ => rfl
  | z => exact hlevel _ (fun _ => rfl) fun _ => rfl
  | y =>
    show Block.withHalf b (Block.withHalf b (b.withFacing (Pos.mirrorVector · .y) b) "half") "type" = _
    rw [hfacing, Block.withHalf_eq, Block.withHalf_eq,
      amend_valueAt (by decide) (value_half (.inl rfl)),
      amend_valueAt (by decide) (value_half (.inr rfl))]
    refine revise_valueAt hb fun k v m hk hm => ?_
    have hkey := m.key_of_read? hm
    cases m with
    | facing => simp [hkey] at hk
    | axis own => rfl
    | rotation r => rfl
    | half upper => rcases hkey with rfl | rfl <;> simp at hk

/-- **A step revises a block by its bearings.** -/
theorem block_eq (hb : b.PlainRotation) (s : Step) : s.block b = b.revise s.value := by
  cases s with
  | turn axis => exact turn_eq_revise hb axis
  | mirror axis => exact mirror_eq_revise hb axis

/-- A step keeps rotations plain. -/
theorem block_plain (hb : b.PlainRotation) (s : Step) : (s.block b).PlainRotation := by
  intro w hw
  rw [block_eq hb, Block.get?_revise] at hw
  obtain ⟨v, hv, rfl⟩ := Option.map_eq_some_iff.1 hw
  rw [value_eq .rotation (integer? minInt32 maxInt32 v.toList) rfl]
  cases hr : integer? minInt32 maxInt32 v.toList with
  | none => exact .inl hr
  | some r =>
    have hsmall := (hb.written hv (.rotation r) (congrArg (Option.map Bearing.rotation) hr)).1
    have hstep := bearing_small (s := s) hsmall
    obtain ⟨r', hr'⟩ : ∃ r', s.bearing (.rotation r) = .rotation r' := by
      cases s <;> exact ⟨_, rfl⟩
    rw [hr'] at hstep
    obtain ⟨h0, h16⟩ := hstep
    refine .inr ⟨r'.toNat, by omega, ?_⟩
    have htext : toString ((r'.toNat : ℕ) : Int) = toString r'.toNat := rfl
    rw [Option.map_some, Option.getD_some, hr', ← htext, Int.toNat_of_nonneg h0]
    rfl

/-! ### Several steps -/

variable {l l' : List Step}

theorem foldl_block_eq (hb : b.PlainRotation) (l : List Step) :
    l.foldl Step.block b = b.revise fun key v => l.foldl (fun v s => s.value key v) v := by
  induction l generalizing b with
  | nil => exact (Block.revise_self fun _ _ _ => rfl).symm
  | cons s l ih =>
    rw [List.foldl_cons, ih (block_plain hb s), block_eq hb, Block.revise_revise]
    rfl

/-- A property that is written as it is read goes through its bearings. -/
theorem foldl_value_eq (hv : Bearing.Written key v) (l : List Step) :
    l.foldl (fun v s => s.value key v) v =
      ((Bearing.read? key v).map fun m => (l.foldl Step.bearing m).text).getD v := by
  induction l generalizing v with
  | nil =>
    cases hread : Bearing.read? key v with
    | none => rfl
    | some m => exact (hv m hread).2.symm
  | cons s l ih =>
    rw [List.foldl_cons]
    cases hread : Bearing.read? key v with
    | none =>
      have hsame : s.value key v = v := value_eq id none hread
      rw [hsame, ih hv, hread]
      rfl
    | some m =>
      have hstep : s.value key v = (s.bearing m).text := value_eq id (some m) hread
      have hback := read?_bearing (s := s) hread (hv m hread).1
      have hwritten : Bearing.Written key (s.bearing m).text := by
        intro m' hm'
        obtain rfl : s.bearing m = m' := Option.some.inj (hback.symm.trans hm')
        exact ⟨bearing_small (hv m hread).1, rfl⟩
      rw [hstep, ih hwritten, hback]
      rfl

/-- **Steps that move bearings alike change blocks alike.** -/
theorem foldl_block_congr (h : ∀ m : Bearing, m.Small → l.foldl Step.bearing m = l'.foldl Step.bearing m)
    (hb : b.PlainRotation) : l.foldl Step.block b = l'.foldl Step.block b := by
  rw [foldl_block_eq hb, foldl_block_eq hb]
  refine Block.revise_congr fun key v hv => ?_
  have hwritten := hb.written hv
  rw [foldl_value_eq hwritten, foldl_value_eq hwritten]
  cases hread : Bearing.read? key v with
  | none => rfl
  | some m =>
    rw [Option.map_some, Option.map_some, h m (hwritten m hread).1]

end Clipboard.Step

end VoxelEdit
