import VoxelEdit.Proofs.EditExact
import VoxelEdit.Proofs.FreshSampling

/-!
# Blocks that are found again

What a constant candidate places, it also matches, unless its text gives one property two values:
a block keeps both, and a lookup sees only the first.

* `OneValued`: properties of which none has two values.
* `Descriptor.admits_placed`: a candidate matches what it places exactly if its properties are so.
* `Pattern.placed_is_found`: so a pattern matches what it places, and after a fill each block that
  is not empty is found by the same pattern.
-/

namespace VoxelEdit

/-- No property has two values. -/
def OneValued (ps : List (String × String)) : Prop :=
  ∀ k v w, (k, v) ∈ ps → (k, w) ∈ ps → v = w

section Properties

variable {ps : List (String × String)}

theorem mem_of_lookup {k v : String} (h : ps.lookup k = some v) : (k, v) ∈ ps := by
  obtain ⟨before, after, rfl, -⟩ := List.lookup_eq_some_iff.1 h
  exact List.mem_append_right _ List.mem_cons_self

/-- **A lookup finds every property** exactly if none of them has two values. -/
theorem oneValued_iff_lookup : OneValued ps ↔ ∀ x ∈ ps, ps.lookup x.1 = some x.2 := by
  constructor
  · rintro h ⟨k, v⟩ hmem
    cases hfound : ps.lookup k with
    | none =>
      have hnone := List.lookup_eq_none_iff.1 hfound (k, v) hmem
      simp at hnone
    | some w => rw [h k v w hmem (mem_of_lookup hfound)]
  · intro h k v w hv hw
    exact Option.some.inj ((h _ hv).symm.trans (h _ hw))

/-- The order of properties does not matter. -/
theorem oneValued_sort : OneValued (Block.sortProperties ps) ↔ OneValued ps := by
  unfold OneValued Block.sortProperties
  simp only [List.mem_mergeSort]

end Properties

namespace Descriptor

/-- A candidate that gives no property two values. -/
def Clear : Descriptor → Prop
  | .named block _ => OneValued block.properties
  | _ => True

/-- A name is clear if the states behind it are. -/
theorem clear_ofName {name : String} (h : runtimeId? name = none) (states : List (String × String))
    (data : DataSpec) : (ofName name states data).Clear ↔ OneValued states := by
  unfold ofName
  rw [h]
  exact oneValued_sort

variable {R : Type} {scene : Scene R} {vars : Variables} {d : Descriptor} {e : Entry}

/-- A data value that is placed is one that is matched. -/
theorem admits_dataOf {fs : Functions} {data : DataSpec} {v : UInt16}
    (hconst : ∀ text, data ≠ .formula text) (h : dataOf fs vars data = .ok v) :
    data.admits v = true := by
  cases data with
  | any => rfl
  | value w =>
    cases h
    exact beq_self_eq_true v
  | formula text => exact absurd rfl (hconst text)

/-- **A constant candidate matches what it places** exactly if it gives no property two values. -/
theorem admits_placed (hconst : d.isConstant = true)
    (h : d.entryOf scene vars = .ok (some e)) :
    d.admits scene.registry e.block = true ↔ d.Clear := by
  cases d with
  | named block data =>
    obtain ⟨v, hv, heq⟩ := bind_eq_ok h
    cases heq
    have hdata : data.admits v = true :=
      admits_dataOf (fun text heq => by subst heq; exact nomatch hconst) hv
    show (block.name == block.name && data.admits v &&
      block.properties.all fun x => block.properties.lookup x.1 == some x.2) = true ↔ _
    rw [hdata, beq_self_eq_true, Bool.and_self, Bool.true_and, List.all_eq_true]
    simp only [beq_iff_eq]
    exact oneValued_iff_lookup.symm
  | legacy id data =>
    obtain ⟨v, hv, heq⟩ := bind_eq_ok h
    have hdata : data.admits v = true :=
      admits_dataOf (fun text heq => by subst heq; exact nomatch hconst) hv
    -- the name does not depend on the data value
    obtain ⟨b, hb, rfl⟩ := Option.map_eq_some_iff.1 (Except.ok.inj heq)
    obtain ⟨known, hknown, rfl⟩ := Option.map_eq_some_iff.1 hb
    have hname : scene.registry.byLegacy? id 0 = some { known with data := 0 } := by
      unfold BlockRegistry.byLegacy?
      rw [hknown]
      rfl
    simp [admits, Clear, hname, Entry.ofBlock, hdata]
  | legacyFormula text data => exact nomatch hconst
  | runtime id =>
    obtain ⟨b, hb, rfl⟩ := Option.map_eq_some_iff.1 (Except.ok.inj h)
    simp [admits, Clear, hb, Entry.ofBlock]
  | runtimeFormula text => exact nomatch hconst
  | tree entry =>
    cases h
    simp [admits, Clear]

end Descriptor

/-! ## Patterns -/

theorem Samples.answer_of_mem {α β : Type} {x : α → Sampling β} {f : α → β} {d d' : Draws}
    {as : List α} (h : Samples x d as (as.map f) d') {a : α} (ha : a ∈ as) :
    ∃ before after, (x a).answer before = (.ok (f a), after) := by
  induction as generalizing d with
  | nil => exact absurd ha List.not_mem_nil
  | cons b bs ih =>
    cases h with
    | cons hb hbs =>
      rcases List.mem_cons.1 ha with rfl | ha
      · exact ⟨_, _, hb⟩
      · exact ih hbs ha

namespace Pattern

variable {R : Type} {scene : Scene R} {vars : Variables} {p mask : Pattern}

/-- A mask matches what one of its candidates matches. -/
theorem admits_of_mem {d : Descriptor} (hd : d ∈ mask.terms.map Term.descriptor)
    {r : BlockRegistry} {b : Block} (hb : d.admits r b = true) : mask.admits r b = true := by
  obtain ⟨t, ht, rfl⟩ := List.mem_map.1 hd
  exact List.any_eq_true.2 ⟨t, ht, hb⟩

/-- What a list of terms places is what one of its candidates stands for. -/
theorem entryOf_of_sample {pos : Pos} {d d' : Draws} {e : Entry} (hp : p.tiling? = none)
    (h : (p.sample scene vars pos).answer d = (.ok (some e), d')) :
    ∃ t ∈ p.terms, t.descriptor.entryOf scene vars = .ok (some e) := by
  have hsample : p.sampleOf scene vars pos d = (.ok (some e), d') :=
    (sample_eq scene vars p pos ⟨.empty, d⟩).symm.trans h
  unfold tiling? at hp
  unfold terms
  unfold sampleOf at hsample
  cases hsource : p.source with
  | clipboard tiling =>
    rw [hsource] at hp
    exact nomatch hp
  | terms terms =>
    rw [hsource] at hsample
    dsimp only at hsample
    split at hsample
    · rename_i t rest ht
      exact ⟨t, mem_of_pickOf scene vars ht, (Prod.mk.inj hsample).1⟩
    · exact nomatch Except.ok.inj (Prod.mk.inj hsample).1
    · exact nomatch (Prod.mk.inj hsample).1

/-- **A pattern matches what it places** if its candidates are constant and clear. -/
theorem admits_sample {pos : Pos} {d d' : Draws} {e : Entry} (hp : p.tiling? = none)
    (hterms : ∀ t ∈ p.terms, t.descriptor.isConstant = true ∧ t.descriptor.Clear)
    (hmask : ∀ t ∈ p.terms, t.descriptor ∈ mask.terms.map Term.descriptor)
    (h : (p.sample scene vars pos).answer d = (.ok (some e), d')) :
    mask.admits scene.registry e.block = true := by
  obtain ⟨t, ht, he⟩ := entryOf_of_sample hp h
  obtain ⟨hconst, hclear⟩ := hterms t ht
  exact admits_of_mem (hmask t ht) ((Descriptor.admits_placed hconst he).2 hclear)

variable [Radius R]

/-- **What was placed is found.** A constant candidate matches the block that it places exactly if
it gives no property two values, and then every mask with this candidate matches the block. So
after a fill with such candidates a mask with the same ones matches each site where something was
placed that is not empty. -/
theorem placed_is_found (p mask : Pattern)
    (hmask : ∀ t ∈ p.terms, t.descriptor ∈ mask.terms.map Term.descriptor) :
    (∀ t ∈ p.terms, t.descriptor.isConstant = true →
      ∀ (scene : Scene R) (vars : Variables) (s s' : SampleState) (e : Entry),
        t.descriptor.resolve scene vars s = (.ok (some e), s') →
          (t.descriptor.admits scene.registry e.block = true ↔ t.descriptor.Clear) ∧
          (t.descriptor.Clear → mask.admits scene.registry e.block = true)) ∧
    (p.tiling? = none →
      (∀ t ∈ p.terms, t.descriptor.isConstant = true ∧ t.descriptor.Clear) →
      ∀ (tools : EditTools) (ws : Workspace R) (r : Region R) (n : Nat), ws.world.Free →
        ws.session.region = some r → (ws.fill tools p).2 = .ok n →
          ∃ found, ws.Paints tools r (fun _ => true) p (ws.fill tools p).1 n found ∧
            ∀ pos e, found pos = some e → e.isAir = false →
              mask.admits tools.registry ((ws.fill tools p).1.world.get ⟨r.dim, pos⟩).block) := by
  refine ⟨fun t ht hconst scene vars s s' e he => ?_, fun hp hterms tools ws r n hw hr hn => ?_⟩
  · have hentry : t.descriptor.entryOf scene vars = .ok (some e) := by
      rw [← (t.descriptor.resolve_computes scene vars s).1, he]
    have hiff := Descriptor.admits_placed hconst hentry
    exact ⟨hiff, fun hclear => admits_of_mem (hmask t ht) (hiff.2 hclear)⟩
  · obtain ⟨found, hpaints⟩ := Workspace.fill_paints tools hw hr p hn
    refine ⟨found, hpaints, fun pos e he hair => ?_⟩
    -- an entry was found where the fill went, and there it was a sample
    have hpicked : pos ∈ ws.picked tools r fun _ => true := by
      by_contra hout
      rw [hpaints.nowhere_else pos hout] at he
      exact nomatch he
    obtain ⟨before, after, hanswer⟩ := hpaints.sampled.answer_of_mem hpicked
    rw [he] at hanswer
    have hkept : e.kept = e := if_neg (by simp [hair])
    have hadmits : mask.admits (ws.scene tools r).registry e.block = true :=
      admits_sample hp hterms hmask hanswer
    rw [hpaints.view, if_pos rfl, he, Option.map_some, Option.getD_some, hkept]
    exact hadmits

/-- Stone with an old number is placed at one position, and found there. -/
theorem placed_is_found_stone :
    let tools : EditTools := ⟨.withSeed .flat 0, .standard⟩
    let p : Pattern := ⟨"1:3", .terms [⟨.constant 1.0, .legacy 1 (.value 3)⟩]⟩
    let r : Region Float := .ofBox .cuboid 0 ⟨.zero, .zero⟩
    let fresh : Session Float := .new .standard
    let ws : Workspace Float :=
      { session := { fresh with region := some r }
        canvas := .blank
        world := .empty
        sampling := ⟨.empty, .ofList []⟩ }
    let e : Entry := .ofBlock ⟨"minecraft:stone", 3, []⟩
    parse "1:3" = .ok p ∧ p.admits tools.registry e.block = true ∧
      (∃ n, (ws.fill tools p).2 = .ok n) ∧
      p.admits tools.registry ((ws.fill tools p).1.world.get ⟨0, .zero⟩).block = true := by
  intro tools p r fresh ws e
  have htokens : Token.ofText "1:3" = .ok [⟨0, .number "1"⟩, ⟨1, .colon⟩, ⟨2, .number "3"⟩] := by
    decide +kernel
  have hparse : parse "1:3" = .ok p := by
    unfold parse
    rw [htokens]
    rfl
  have hself : ∀ t ∈ p.terms, t.descriptor ∈ p.terms.map Term.descriptor :=
    fun t ht => List.mem_map_of_mem ht
  have hterms : ∀ t ∈ p.terms, t.descriptor.isConstant = true ∧ t.descriptor.Clear :=
    List.forall_mem_singleton.2 ⟨rfl, trivial⟩
  obtain ⟨hplaced, hfilled⟩ := placed_is_found (R := Float) p p hself
  have hentry : (Descriptor.legacy 1 (.value 3)).resolve (ws.scene tools r) .empty ws.sampling =
      (.ok (some e), ws.sampling) := rfl
  have hadmits := (hplaced _ (List.mem_singleton_self _) rfl _ _ _ _ _ hentry).2 trivial
  -- the fill finds stone at the one position of the box
  have hpositions : r.positions = [.zero] := by decide +kernel
  have hpicked : ws.picked tools r (fun _ => true) = [.zero] := by
    unfold Workspace.picked
    rw [hpositions]
    rfl
  have hanswer : (p.sampleIn (ws.scene tools r) r.box .zero).answer ws.sampling.draws =
      (.ok (some e), ws.sampling.draws) := rfl
  have hfill : ∃ n, (ws.fill tools p).2 = .ok n := by
    have hsamples := Samples.cons hanswer (.nil _)
    rw [← hpicked] at hsamples
    exact Workspace.perform_done tools r r.dim p nofun (fun _ _ => ⟨true, rfl⟩) hsamples
  obtain ⟨n, hn⟩ := hfill
  obtain ⟨found, hpaints, hfound⟩ := hfilled rfl hterms tools ws r n World.Made.empty.free rfl hn
  obtain ⟨before, after, hzero⟩ :=
    hpaints.sampled.answer_of_mem (hpicked ▸ List.mem_singleton_self Pos.zero)
  have he : some e = found .zero := Except.ok.inj (congrArg Prod.fst hzero)
  exact ⟨hparse, hadmits, ⟨n, hn⟩, hfound .zero e he.symm rfl⟩

/-- Stone whose property `a` is given as `1` and as `2` is placed, but not matched. -/
theorem twice_set_not_found :
    let scene : Scene Float := ⟨.withSeed .flat 0, .standard, none, none⟩
    let d : Descriptor := .ofName "stone" [("a", "1"), ("a", "2")] .any
    let p : Pattern := ⟨"stone[a=1,a=2]", .terms [⟨.constant 1.0, d⟩]⟩
    let b : Block := ⟨"minecraft:stone", 0, Block.sortProperties [("a", "1"), ("a", "2")]⟩
    parse "stone[a=1,a=2]" = .ok p ∧ d.isConstant = true ∧
      (d.resolve scene .empty ⟨.empty, .ofList []⟩).1 = .ok (some (.ofBlock b)) ∧
      p.admits scene.registry b = false := by
  intro scene d p b
  have htokens : Token.ofText "stone[a=1,a=2]" =
      .ok [⟨0, .name "stone" [("a", "1"), ("a", "2")]⟩] := by decide +kernel
  have hparse : parse "stone[a=1,a=2]" = .ok p := by
    unfold parse
    rw [htokens]
    rfl
  have hplaced : d.entryOf scene .empty = .ok (some (.ofBlock b)) := rfl
  have hunclear : ¬ d.Clear := by
    rw [Descriptor.clear_ofName rfl]
    intro h
    exact absurd (h "a" "1" "2" (by decide) (by decide)) (by decide)
  have hadmits : d.admits scene.registry b = false :=
    Bool.eq_false_iff.2 (mt (Descriptor.admits_placed rfl hplaced).1 hunclear)
  exact ⟨hparse, rfl, rfl, by simp [admits, terms, p, hadmits]⟩

end Pattern

end VoxelEdit
