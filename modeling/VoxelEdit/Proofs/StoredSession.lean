import VoxelEdit.Proofs.StoredRegion
import VoxelEdit.Session.Tags

/-!
# Stored sessions are read back

* `Selection`: what a session is stored for: the settings, both sites, the hint and the region.
* `Selection.Storable`: its texts and positions fit their tags, and its region is sound and proper.
* `Session.decode?_encode?`: **a session with a storable selection is written, and what is written
  is read as a session with the same selection that has nothing to save**, whatever the defaults.
  This asks of the settings that their numbers have a sign bit left (`PlayerConfig.Bounded`), and
  without it they do not come back: `Session.bounded_of_ofFields?`.
-/

namespace VoxelEdit

open Number Nbt

/-! ## Settings -/

/-- Settings whose numbers are written with a sign bit of zero. -/
structure PlayerConfig.Bounded (c : PlayerConfig) : Prop where
  pause : (c.pause : Int) ≤ maxInt64
  historyLength : (c.historyLength : Int) ≤ maxInt32

namespace PlayerConfig

variable {c : PlayerConfig}

theorem kindOf_id (field : String) (k : RegionKind) : kindOf field k.id = .ok k := by
  rw [kindOf, Region.ofId?_id]

/-- The fields of settings in the order in which they are written. -/
theorem get?_toFields {x : String × Tag} (hx : x ∈ [("wand", Tag.string c.wand),
    ("defaultRegionType", .ofInt c.kind.id), ("minimumResponseTick", .long (Int64.ofNat c.pause)),
    ("historyLength", .int (Int32.ofNat c.historyLength))]) :
    c.toFields.get? x.1 = some x.2 :=
  Fields.get?_ofList_of_mem (by simp) hx

/-- **Settings are read back from their fields.** -/
theorem ofFields?_toFields (hc : c.Bounded) (defaults : PlayerConfig) :
    ofFields? c.toFields defaults = .ok c := by
  have hwand : c.toFields.get? "wand" = some (.string c.wand) :=
    get?_toFields (x := ("wand", .string c.wand)) (by simp)
  have hkind : c.toFields.get? "defaultRegionType" = some (.ofInt c.kind.id) :=
    get?_toFields (x := ("defaultRegionType", .ofInt c.kind.id)) (by simp)
  have hpause : c.toFields.get? "minimumResponseTick" = some (.long (Int64.ofNat c.pause)) :=
    get?_toFields (x := ("minimumResponseTick", .long (Int64.ofNat c.pause))) (by simp)
  have hhistory : c.toFields.get? "historyLength" = some (.int (Int32.ofNat c.historyLength)) :=
    get?_toFields (x := ("historyLength", .int (Int32.ofNat c.historyLength))) (by simp)
  have hpauseInt : (Int64.ofNat c.pause).toInt = c.pause :=
    Int64.toInt_ofNat_of_lt (by have := hc.pause; simp only [maxInt64] at this; omega)
  have hhistoryInt : (Int32.ofNat c.historyLength).toInt = c.historyLength :=
    Int32.toInt_ofNat_of_lt (by have := hc.historyLength; simp only [maxInt32] at this; omega)
  unfold ofFields? setting
  rw [hwand, hkind, hpause, hhistory]
  simp only [Tag.ofInt, (Region.kind_narrow c.kind).toInt_ofInt, kindOf_id, hpauseInt, hhistoryInt,
    Option.getD_some, Region.ok_bind, ge_iff_le, Int.natCast_nonneg, if_true, Int.toNat_natCast]
  rfl

/-- A number of settings that is read is not larger than its tag allows. -/
theorem setting_range {fields : Fields} {name what : String} {default n : Nat}
    {read : Tag → Option (Except StateError Nat)} {bound : Int} {tag : Tag}
    (htag : fields.get? name = some tag) (hread : ∀ n, read tag = some (.ok n) → (n : Int) ≤ bound)
    (h : setting fields name what default read = .ok n) : (n : Int) ≤ bound := by
  unfold setting at h
  rw [htag] at h
  dsimp only at h
  cases hr : read tag with
  | none =>
    rw [hr] at h
    exact nomatch h
  | some result =>
    rw [hr, Option.getD_some] at h
    exact hread n (hr.trans (congrArg some h))

/-- **Settings that are read from what was written are bounded.** -/
theorem bounded_of_ofFields? {c' : PlayerConfig} {defaults : PlayerConfig}
    (h : ofFields? c.toFields defaults = .ok c') : c'.Bounded := by
  obtain ⟨wand, -, h⟩ := bind_eq_ok h
  obtain ⟨kind, -, h⟩ := bind_eq_ok h
  obtain ⟨pause, hpause, h⟩ := bind_eq_ok h
  obtain ⟨historyLength, hhistory, h⟩ := bind_eq_ok h
  rw [← Except.ok.inj h]
  constructor
  · refine setting_range (get?_toFields (x := ("minimumResponseTick", .long (Int64.ofNat c.pause)))
      (by simp)) (fun n hn => ?_) hpause
    dsimp only at hn
    split at hn
    · have hlt := (Int64.ofNat c.pause).toInt_lt
      rw [← Except.ok.inj (Option.some.inj hn), maxInt64]
      omega
    · exact nomatch hn
  · refine setting_range (get?_toFields (x := ("historyLength", .int (Int32.ofNat c.historyLength)))
      (by simp)) (fun n hn => ?_) hhistory
    dsimp only at hn
    split at hn
    · have hlt := (Int32.ofNat c.historyLength).toInt_lt
      rw [← Except.ok.inj (Option.some.inj hn), maxInt32]
      omega
    · exact nomatch hn

theorem names_short : ∀ name ∈ ["wand", "defaultRegionType", "minimumResponseTick",
    "historyLength"], ShortText name := by
  decide +kernel

theorem toFields_fits (hc : ShortText c.wand) : (Tag.compound c.toFields).Fits := by
  refine fits_ofList fun x hx => ?_
  simp only [List.mem_cons, List.not_mem_nil, or_false] at hx
  rcases hx with rfl | rfl | rfl | rfl
  · exact ⟨names_short _ (by simp), hc⟩
  · exact ⟨names_short _ (by simp), trivial⟩
  · exact ⟨names_short _ (by simp), trivial⟩
  · exact ⟨names_short _ (by simp), trivial⟩

end PlayerConfig

/-! ## Sessions -/

/-- What a session is stored for. -/
structure Selection (R : Type) where
  config : PlayerConfig
  main : Option Site
  vice : Option Site
  hint : Option RegionKind
  region : Option (Region R)

namespace Selection

variable {R : Type}

/-- The texts and positions of a selection fit their tags. -/
structure InRange (m : Selection R) : Prop where
  wand : ShortText m.config.wand
  main : ∀ site, m.main = some site → site.InWorld
  vice : ∀ site, m.vice = some site → site.InWorld
  world : ∀ r, m.region = some r → r.InWorld

/-- A selection that is written and read back, as far as the numbers of its settings are. -/
structure Storable [StoredRadius R] (m : Selection R) : Prop extends m.InRange where
  fit : ∀ r, m.region = some r → r.Fit

/-- The region of a storable selection has vertices or points, if it is made of them. -/
theorem Storable.filled [StoredRadius R] {m : Selection R} (hm : m.Storable) (r : Region R)
    (hr : m.region = some r) : r.shape.Filled :=
  (hm.fit r hr).proper.filled

/-- A cuboid whose corners are picked in the world is in range. -/
theorem corners_inRange {config : PlayerConfig} {dim : Int} {p q : Pos}
    {v : Option Site} (hwand : ShortText config.wand) (hdim : Narrow dim) (hp : p.InWorld)
    (hq : q.InWorld) (hvice : ∀ site, v = some site → site.InWorld) : InRange
      (⟨config, some ⟨dim, p⟩, v, some .cuboid, some ⟨dim, .cuboid (.ofCorners p q)⟩⟩ :
        Selection R) where
  wand := hwand
  main _ h := Option.some.inj h ▸ ⟨hdim, hp⟩
  vice := hvice
  world _ h := Option.some.inj h ▸ ⟨hdim, Box.span_inWorld hp hq, hp, hq⟩

end Selection

namespace Session

section

variable {R : Type} (s : Session R)

/-- What is stored of a session. -/
def selection : Selection R := ⟨s.config, s.mainSite, s.viceSite, s.hint, s.region⟩

/-- The session that a selection is read as: nothing is drawn and there is nothing to save. -/
def ofSelection (m : Selection R) : Session R :=
  { (new m.config : Session R) with
    main := m.main.map fun site => ⟨site, none⟩
    vice := m.vice.map fun site => ⟨site, none⟩
    hint := m.hint
    region := m.region }

theorem selection_ofSelection (m : Selection R) : (ofSelection m).selection = m := by
  obtain ⟨config, main, vice, hint, region⟩ := m
  cases main <;> cases vice <;> rfl

end

variable {R : Type} [StoredRadius R] {s : Session R}

/-- The fields of a session in the order in which they are written. -/
def written (s : Session R) : List (String × Tag) :=
  [("config", Tag.compound s.config.toFields)] ++
    (s.mainSite.map fun site => ("mainPos", site.toTag)).toList ++
    (s.viceSite.map fun site => ("vicePos", site.toTag)).toList ++
    (s.hint.map fun kind => ("regionType", Tag.ofInt kind.id)).toList ++
    (s.region.map fun r => ("region", Tag.compound r.toFields)).toList

/-- **What is written under each name**: what is unset has no field. -/
theorem get?_toFields (s : Session R) :
    s.toFields.get? "config" = some (.compound s.config.toFields) ∧
    s.toFields.get? "mainPos" = s.mainSite.map Site.toTag ∧
    s.toFields.get? "vicePos" = s.viceSite.map Site.toTag ∧
    s.toFields.get? "regionType" = s.hint.map (fun kind => .ofInt kind.id) ∧
    s.toFields.get? "region" = s.region.map (fun r => .compound r.toFields) := by
  have hwritten : s.toFields = Fields.ofList s.written := rfl
  simp only [hwritten, Fields.get?_ofList, written]
  cases s.mainSite <;> cases s.viceSite <;> cases s.hint <;> cases s.region <;>
    simp [List.lookup_cons]

/-- A marker is read back without its drawing. -/
theorem markerOf_eq {name : String} {site : Option Site}
    (h : s.toFields.get? name = site.map Site.toTag) (hw : ∀ t, site = some t → t.InWorld) :
    markerOf s.toFields name = .ok (site.map fun t => ⟨t, none⟩) := by
  unfold markerOf
  rw [h]
  cases site with
  | none => rfl
  | some t =>
    rw [Option.map_some]
    dsimp only
    rw [Site.ofTag?_toTag (hw t rfl)]
    rfl

theorem hintOf_eq (s : Session R) : hintOf s.toFields = .ok s.hint := by
  obtain ⟨-, -, -, h, -⟩ := s.get?_toFields
  unfold hintOf
  rw [h]
  cases s.hint with
  | none => rfl
  | some kind =>
    show (PlayerConfig.kindOf "regionType" (Int32.ofInt kind.id).toInt >>= fun k =>
      Except.ok (some k)) = _
    rw [(Region.kind_narrow kind).toInt_ofInt, PlayerConfig.kindOf_id, Region.ok_bind]

theorem regionOf_eq (hs : s.selection.Storable) : regionOf s.toFields = .ok s.region := by
  obtain ⟨-, -, -, -, h⟩ := s.get?_toFields
  unfold regionOf
  rw [h]
  cases hr : s.region with
  | none => rfl
  | some r =>
    rw [Option.map_some]
    dsimp only
    have hw : r.Representable := ⟨(hs.world r hr).dim, (hs.world r hr).shape.representable⟩
    rw [Region.ofFields?_toFields (hs.fit r hr).sound (hs.fit r hr).proper hw]

/-- **A session is read back from its fields.** -/
theorem ofFields?_toFields (hs : s.selection.Storable) (hc : s.config.Bounded)
    (defaults : PlayerConfig) :
    ofFields? s.toFields defaults = .ok (ofSelection s.selection) := by
  obtain ⟨hconfig, hmain, hvice, -⟩ := s.get?_toFields
  have hsettings : configOf s.toFields defaults = .ok s.config := by
    unfold configOf
    rw [hconfig]
    exact PlayerConfig.ofFields?_toFields hc defaults
  unfold ofFields?
  rw [hsettings, markerOf_eq hmain hs.main, markerOf_eq hvice hs.vice, hintOf_eq, regionOf_eq hs]
  rfl

theorem names_short : ∀ name ∈ ["config", "mainPos", "vicePos", "regionType", "region", "dim",
    "pos"], ShortText name := by
  decide +kernel

theorem site_fits (site : Site) : site.toTag.Fits := by
  refine fits_ofList fun x hx => ?_
  simp only [List.mem_cons, List.not_mem_nil, or_false] at hx
  rcases hx with rfl | rfl
  · exact ⟨names_short _ (by simp), trivial⟩
  · exact ⟨names_short _ (by simp), show 3 ≤ 2147483647 by decide⟩

/-- The tags of a session fit into the binary form. -/
theorem toFields_fits (hs : s.selection.InRange)
    (hfilled : ∀ r, s.region = some r → r.shape.Filled) : (Tag.compound s.toFields).Fits := by
  refine fits_ofList fun x hx => ?_
  simp only [List.mem_append, List.mem_singleton, Option.mem_toList, Option.map_eq_some_iff] at hx
  rcases hx with (((rfl | ⟨site, -, rfl⟩) | ⟨site, -, rfl⟩) | ⟨kind, -, rfl⟩) | ⟨r, hr, rfl⟩
  · exact ⟨names_short _ (by simp), PlayerConfig.toFields_fits hs.wand⟩
  · exact ⟨names_short _ (by simp), site_fits site⟩
  · exact ⟨names_short _ (by simp), site_fits site⟩
  · exact ⟨names_short _ (by simp), trivial⟩
  · exact ⟨names_short _ (by simp), Region.toFields_fits (hfilled r hr) (hs.world r hr)⟩

/-- A region that is read is fit. -/
theorem fit_of_regionOf {fields : Fields} {r : Region R} (h : regionOf fields = .ok (some r)) :
    r.Fit := by
  unfold regionOf at h
  split at h
  · exact nomatch Except.ok.inj h
  · split at h
    · rename_i hr
      rw [Option.some.inj (Except.ok.inj h)] at hr
      exact Region.fit_of_ofFields? hr
    · exact nomatch h
  · exact nomatch h

/-- What is read from fields has a fit region, if it has one. -/
theorem fit_of_ofFields? {s' : Session R} {fields : Fields} {defaults : PlayerConfig}
    (h : ofFields? fields defaults = .ok s') : ∀ r, s'.region = some r → r.Fit := by
  obtain ⟨config, -, h⟩ := bind_eq_ok h
  obtain ⟨main, -, h⟩ := bind_eq_ok h
  obtain ⟨vice, -, h⟩ := bind_eq_ok h
  obtain ⟨hint, -, h⟩ := bind_eq_ok h
  obtain ⟨region, hregion, h⟩ := bind_eq_ok h
  rw [← Except.ok.inj h]
  rintro r rfl
  exact fit_of_regionOf hregion

/-- What is read from the fields of a session has bounded settings. -/
theorem bounded_of_ofFields? {s' : Session R} {defaults : PlayerConfig}
    (h : ofFields? s.toFields defaults = .ok s') : s'.config.Bounded := by
  obtain ⟨hconfig, -⟩ := s.get?_toFields
  obtain ⟨config, hc, h⟩ := bind_eq_ok h
  obtain ⟨main, -, h⟩ := bind_eq_ok h
  obtain ⟨vice, -, h⟩ := bind_eq_ok h
  obtain ⟨hint, -, h⟩ := bind_eq_ok h
  obtain ⟨region, -, h⟩ := bind_eq_ok h
  rw [← Except.ok.inj h]
  unfold configOf at hc
  rw [hconfig] at hc
  exact PlayerConfig.bounded_of_ofFields? hc

/-- A session with a selection in range is written, and its fields are what is read. -/
theorem decode?_eq_ofFields? (hs : s.selection.InRange)
    (hfilled : ∀ r, s.region = some r → r.shape.Filled) : ∃ bs, s.encode? = some bs ∧
      ∀ defaults, (decode? bs defaults : Except StateError (Session R)) =
        ofFields? s.toFields defaults := by
  obtain ⟨hsorted, hfields⟩ := toFields_fits hs hfilled
  have hroot : ShortText "" := by decide +kernel
  obtain ⟨bs, hbs, hread⟩ := ofFile?_file? hroot hsorted hfields
  refine ⟨bs, hbs, fun defaults => ?_⟩
  unfold decode?
  rw [hread]

/-- **A session with a storable selection is written, and what is written is read back.** -/
theorem decode?_encode? (hs : s.selection.Storable) (hc : s.config.Bounded) :
    ∃ bs, s.encode? = some bs ∧
      ∀ defaults, decode? bs defaults = .ok (ofSelection s.selection) := by
  obtain ⟨bs, hbs, hread⟩ := decode?_eq_ofFields? hs.toInRange hs.filled
  exact ⟨bs, hbs, fun defaults => (hread defaults).trans (ofFields?_toFields hs hc defaults)⟩

end Session

end VoxelEdit
