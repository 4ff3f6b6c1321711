import Mathlib.Data.List.Nodup
import VoxelEdit.Block.State
import VoxelEdit.Proofs.CompoundFields

/-!
# Blocks as tags

A block is written in one layout and read from two. What comes back is a block in its stored form:
with a namespace, and with its properties in the order of their keys, each key once.

* `Block.Stored`: the stored form of a block. There is only one (`Block.Stored.unique`), and a block
  that is in it already is its own (`Block.stored_self`).
* `Block.ofFields?_toFields`: what is written is read as the stored form.
* `Block.written_read_stored`: **writing and reading a block gives its stored form, and changes no block
  that was read**, from a compound of either layout.
-/

namespace VoxelEdit

open Nbt

/-! ## Lists of keys and values -/

section Keyed

variable {α : Type} {l l' : List (String × α)}

theorem keys_ne (h : l.Pairwise fun x y => x.1 < y.1) : l.Pairwise fun x y => x.1 ≠ y.1 :=
  h.imp Std.ne_of_lt

/-- If the keys are all different, a lookup finds what is there. -/
theorem mem_iff_lookup (h : l.Pairwise fun x y => x.1 ≠ y.1) {x : String × α} :
    x ∈ l ↔ l.lookup x.1 = some x.2 := by
  constructor
  · intro hx
    obtain ⟨before, after, rfl⟩ := List.append_of_mem hx
    refine List.lookup_eq_some_iff.2 ⟨before, after, rfl, fun y hy => ?_⟩
    rw [bne_iff_ne]
    exact ((List.pairwise_append.1 h).2.2 y hy x List.mem_cons_self).symm
  · intro hx
    obtain ⟨before, after, rfl, -⟩ := List.lookup_eq_some_iff.1 hx
    exact List.mem_append_right _ List.mem_cons_self

theorem lookup_reverse (h : l.Pairwise fun x y => x.1 ≠ y.1) (key : String) :
    l.reverse.lookup key = l.lookup key := by
  have hreverse : l.reverse.Pairwise fun x y => x.1 ≠ y.1 :=
    List.pairwise_reverse.2 (h.imp Ne.symm)
  refine Option.ext fun v => ?_
  rw [← mem_iff_lookup (x := (key, v)) hreverse, ← mem_iff_lookup (x := (key, v)) h, List.mem_reverse]

/-- Lists in the order of their keys are known by their lookups. -/
theorem eq_of_lookup (h : l.Pairwise fun x y => x.1 < y.1) (h' : l'.Pairwise fun x y => x.1 < y.1)
    (hlookup : ∀ key, l.lookup key = l'.lookup key) : l = l' := by
  have hnodup {l : List (String × α)} (h : l.Pairwise fun x y => x.1 < y.1) : l.Nodup :=
    (keys_ne h).imp fun hne heq => hne (congrArg Prod.fst heq)
  have hperm : l.Perm l' := by
    refine (List.perm_ext_iff_of_nodup (hnodup h) (hnodup h')).2 fun x => ?_
    rw [mem_iff_lookup (keys_ne h), mem_iff_lookup (keys_ne h'), hlookup]
  exact hperm.eq_of_pairwise (fun x y _ _ hxy hyx => absurd hyx (String.lt_asymm hxy)) h h'

end Keyed

namespace Block

/-! ## The stored form -/

/-- What a block is stored as: its name has a namespace, and its properties come in the order of their
keys, each key once and with the value that was given last. -/
structure Stored (b c : Block) : Prop where
  name : c.name = qualify b.name
  data : c.data = b.data
  sorted : c.properties.Pairwise fun x y => x.1 < y.1
  value : ∀ key, c.get? key = b.properties.reverse.lookup key

variable {b c c' : Block}

/-- **A block has one stored form.** -/
theorem Stored.unique (h : b.Stored c) (h' : b.Stored c') : c = c' := by
  have hproperties := eq_of_lookup h.sorted h'.sorted fun key =>
    (h.value key).trans (h'.value key).symm
  obtain ⟨name, data, properties⟩ := c
  obtain ⟨name', data', properties'⟩ := c'
  obtain rfl : name = name' := h.name.trans h'.name.symm
  obtain rfl : data = data' := h.data.trans h'.data.symm
  exact congrArg _ hproperties

theorem qualify_qualify (name : String) : qualify (qualify name) = qualify name := by
  have hcolon : (qualify name).toList.contains ':' = true := by
    unfold qualify
    split
    · assumption
    · simp
  exact if_pos hcolon

/-- A block with a namespace and with its properties in order is its own stored form. -/
theorem stored_self (hname : qualify b.name = b.name)
    (hsorted : b.properties.Pairwise fun x y => x.1 < y.1) : b.Stored b where
  name := hname.symm
  data := rfl
  sorted := hsorted
  value key := (lookup_reverse (keys_ne hsorted) key).symm

/-! ## Reading -/

/-- The properties that a compound holds; tags that are no values are passed over. -/
def readable (fields : Fields) : List (String × String) :=
  fields.filterMap fun (k, tag) => (propertyText? tag).map (k, ·)

variable {fields : Fields}

theorem readable_sorted (h : fields.Sorted) : (readable fields).Pairwise fun x y => x.1 < y.1 := by
  refine List.Pairwise.filterMap _ (fun x y hxy u hu v hv => ?_) h
  obtain ⟨_, -, rfl⟩ := Option.map_eq_some_iff.1 hu
  obtain ⟨_, -, rfl⟩ := Option.map_eq_some_iff.1 hv
  exact hxy

/-- The value of a property is that of its tag. -/
theorem lookup_readable (h : fields.Sorted) (key : String) :
    (readable fields).lookup key = (fields.get? key).bind propertyText? := by
  have hreadable := keys_ne (readable_sorted h)
  refine Option.ext fun v => ?_
  rw [← mem_iff_lookup (x := (key, v)) hreadable, readable, List.mem_filterMap, Option.bind_eq_some_iff]
  constructor
  · rintro ⟨⟨k, tag⟩, hmem, htext⟩
    obtain ⟨_, hvalue, heq⟩ := Option.map_eq_some_iff.1 htext
    obtain ⟨rfl, rfl⟩ := Prod.mk.inj heq
    exact ⟨tag, (mem_iff_lookup (keys_ne h)).1 hmem, hvalue⟩
  · rintro ⟨tag, hget, htext⟩
    exact ⟨(key, tag), (mem_iff_lookup (x := (key, tag)) (keys_ne h)).2 hget,
      congrArg (Option.map (key, ·)) htext⟩

/-- Properties in the order of their keys stay as they are. -/
theorem sortProperties_eq {ps : List (String × String)} (h : ps.Pairwise fun x y => x.1 < y.1) :
    sortProperties ps = ps :=
  List.mergeSort_of_pairwise (h.imp fun hlt => by simp [propertyLe, hlt])

/-- The compound that holds the properties, in one of the two layouts. -/
def propertyFields (fields : Fields) : Fields :=
  (fields.compound? "Properties" <|> fields.compound? "states").getD []

theorem ofFields?_eq (fields : Fields) : ofFields? fields =
    (fields.string? "Name" <|> fields.string? "name").map fun name =>
      ⟨qualify name, dataOf fields, sortProperties (readable (propertyFields fields))⟩ := by
  unfold ofFields?
  cases (fields.string? "Name" <|> fields.string? "name") <;> rfl

/-- The compounds among the fields have their names in order. -/
def SortedWithin (fields : Fields) : Prop :=
  ∀ (name : String) (sub : Fields), (name, .compound sub) ∈ fields → sub.Sorted

theorem SortedWithin.compound (h : SortedWithin fields) {name : String} {sub : Fields}
    (hsub : fields.compound? name = some sub) : sub.Sorted := by
  unfold Fields.compound? at hsub
  split at hsub
  · rename_i hget
    obtain ⟨before, after, rfl, -⟩ := List.lookup_eq_some_iff.1 hget
    rw [← Option.some.inj hsub]
    exact h name _ (List.mem_append_right _ List.mem_cons_self)
  · exact nomatch hsub

theorem SortedWithin.propertyFields (h : SortedWithin fields) : (propertyFields fields).Sorted := by
  unfold Block.propertyFields
  cases hp : fields.compound? "Properties" with
  | some sub => exact h.compound hp
  | none =>
    cases hs : fields.compound? "states" with
    | some sub => exact h.compound hs
    | none => exact .nil

/-- **A block that is read is its own stored form.** -/
theorem ofFields?_stored (h : SortedWithin fields) (hb : ofFields? fields = some b) : b.Stored b := by
  rw [ofFields?_eq] at hb
  obtain ⟨name, -, rfl⟩ := Option.map_eq_some_iff.1 hb
  have hsorted := readable_sorted h.propertyFields
  refine stored_self (qualify_qualify name) ?_
  dsimp only
  rwa [sortProperties_eq hsorted]

/-! ## Writing -/

/-- The properties of a block as a compound. -/
def propertyTags (b : Block) : Fields :=
  Fields.ofList (b.properties.map fun (k, v) => (k, .string v))

/-- **What is written** under each name. -/
theorem get?_toFields (b : Block) (key : String) : b.toFields.get? key =
    if key = "Properties" ∧ b.properties ≠ [] then some (.compound b.propertyTags)
    else if key = "val" ∧ b.data ≠ 0 then some (.short b.data.toInt16)
    else if key = "Name" then some (.string b.name)
    else none := by
  have hname : (Fields.ofList [("Name", .string b.name)]).get? key =
      if key = "Name" then some (.string b.name) else none := Fields.get?_cons key _
  have hval : (if b.data = 0 then Fields.ofList [("Name", .string b.name)]
      else (Fields.ofList [("Name", .string b.name)]).set "val" (.short b.data.toInt16)).get? key =
      if key = "val" ∧ b.data ≠ 0 then some (.short b.data.toInt16)
      else if key = "Name" then some (.string b.name) else none := by
    by_cases hdata : b.data = 0
    · simp [hdata, hname]
    · simp [hdata, hname, Fields.get?_set]
  unfold toFields
  dsimp only
  by_cases hempty : b.properties = []
  · simp [hempty, hval]
  · simp [hempty, hval, Fields.get?_set, propertyTags]

theorem dataOf_toFields (b : Block) : dataOf b.toFields = b.data := by
  unfold dataOf
  rw [get?_toFields]
  by_cases hdata : b.data = 0
  · simp [hdata]
  · simp [hdata]

theorem propertyFields_toFields (b : Block) : propertyFields b.toFields = b.propertyTags := by
  unfold propertyFields Fields.compound?
  rw [get?_toFields, get?_toFields]
  by_cases hempty : b.properties = []
  · simp [hempty, propertyTags, Fields.ofList]
  · simp [hempty]

theorem lookup_propertyTags (b : Block) (key : String) :
    (readable b.propertyTags).lookup key = b.properties.reverse.lookup key := by
  have hsorted : b.propertyTags.Sorted := Fields.sorted_ofList _
  rw [lookup_readable hsorted, propertyTags, Fields.get?_ofList, ← List.map_reverse]
  generalize b.properties.reverse = ps
  induction ps with
  | nil => rfl
  | cons p ps ih =>
    rw [List.map_cons, List.lookup_cons, List.lookup_cons]
    cases key == p.1 with
    | true => rfl
    | false => exact ih

/-- **What is written is read as the stored form.** -/
theorem ofFields?_toFields (b : Block) : ∃ c, ofFields? b.toFields = some c ∧ b.Stored c := by
  have hsorted : (readable b.propertyTags).Pairwise fun x y => x.1 < y.1 :=
    readable_sorted (Fields.sorted_ofList _)
  have hname : b.toFields.string? "Name" = some b.name := by
    unfold Fields.string?
    simp [get?_toFields]
  refine ⟨⟨qualify b.name, b.data, readable b.propertyTags⟩, ?_, rfl, rfl, hsorted,
    b.lookup_propertyTags⟩
  rw [ofFields?_eq, hname, dataOf_toFields, propertyFields_toFields, sortProperties_eq hsorted]
  rfl

/-- **Writing and reading a block gives its stored form**: its name with a namespace, its data value,
and its properties in the order of their keys, each key once and with its last value. So it changes no
block that was read, from a compound of either layout. -/
theorem written_read_stored :
    (∀ b : Block, ∃ c, ofFields? b.toFields = some c ∧ b.Stored c) ∧
      ∀ (fields : Fields) (b : Block), SortedWithin fields → ofFields? fields = some b →
        ofFields? b.toFields = some b := by
  refine ⟨ofFields?_toFields, fun fields b hfields hb => ?_⟩
  obtain ⟨c, hc, hstored⟩ := b.ofFields?_toFields
  rw [hc, hstored.unique (ofFields?_stored hfields hb)]

/-- A block in the lower-case layout, with tags of several kinds as values: it is read, and stays as it
is when it is written in the other layout and read again. -/
theorem written_read_stored_granite :
    let fields : Fields := [("name", .string "stone"),
      ("states", .compound [("depth", .int (-3)), ("ids", .ints [1, 2]), ("lit", .byte 1),
        ("stone_type", .string "granite")]), ("val", .short (-1))]
    let b : Block := ⟨"minecraft:stone", 65535,
      [("depth", "-3"), ("lit", "true"), ("stone_type", "granite")]⟩
    SortedWithin fields ∧ ofFields? fields = some b ∧ ofFields? b.toFields = some b := by
  intro fields b
  have hwithin : SortedWithin fields := by
    intro name sub hsub
    simp only [fields, List.mem_cons, List.not_mem_nil, or_false, Prod.mk.injEq, reduceCtorEq, and_false,
      false_or, Tag.compound.injEq] at hsub
    rw [hsub.2, Fields.Sorted]
    decide
  have hread : ofFields? fields = some b := by
    rw [ofFields?_eq, sortProperties_eq (readable_sorted hwithin.propertyFields)]
    decide +kernel
  exact ⟨hwithin, hread, written_read_stored.2 fields b hwithin hread⟩

end Block

end VoxelEdit
