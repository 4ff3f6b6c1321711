import Mathlib.Algebra.BigOperators.Group.List.Basic
import Mathlib.Data.List.Dedup
import Mathlib.Data.String.Basic
import VoxelEdit.Proofs.RegionWalk
import VoxelEdit.Proofs.WorldView
import VoxelEdit.World.Stats

/-!
# Distributions are exact

The labels of a region may be counted in parts, by several hands at a time. The parts are split and
merged as it happens, and the entries of a tally come in no particular order.

* `Tally.Holds`: what a tally knows: the labels that were met, each with how often it was.
* `Tally.Gathered`: the tallies of labels that are counted in parts. They all hold the same
  (`Tally.Gathered.holds`).
* `Distribution.ofEntries_sorted`, `Distribution.ofEntries_perm`: the order of a distribution is total,
  so that it is known from the entries alone.
* `Region.distribution_exact`: **a distribution has every label of the region, with the number of its
  positions, however the positions were split.**
-/

namespace VoxelEdit

namespace Tally

/-- The tally has the labels that were met, with how often they were, and no others. -/
def Holds (t : Tally) (times : String → Nat) : Prop :=
  ∀ label, t[label]? = if times label = 0 then none else some (times label)

variable {t : Tally} {times : String → Nat} {entries : List (String × Nat)} {label : String}

theorem holds_empty : Holds ∅ fun _ => 0 := fun _ => Std.HashMap.getElem?_empty

/-- **One entry more.** -/
theorem Holds.add (h : t.Holds times) (label : String) {n : Nat} (hn : 0 < n) :
    (t.add label n).Holds fun l => times l + if label = l then n else 0 := by
  intro l
  unfold Tally.add
  rw [Std.HashMap.getElem?_alter]
  by_cases hl : label = l
  · subst hl
    have hmet : t[label]?.getD 0 = times label := by
      rw [h label]
      split <;> simp_all
    have hne : times label + n ≠ 0 := by omega
    simp only [beq_self_eq_true, if_true, hmet, if_neg hne]
  · simp only [beq_iff_eq, if_neg hl, Nat.add_zero]
    exact h l

/-- How often entries mention a label. -/
def mentions (entries : List (String × Nat)) (label : String) : Nat :=
  (entries.map fun x => if x.1 = label then x.2 else 0).sum

theorem mentions_cons (x : String × Nat) (entries : List (String × Nat)) (label : String) :
    mentions (x :: entries) label = (if x.1 = label then x.2 else 0) + mentions entries label := rfl

/-- **A tally that is merged with entries** holds what both of them do. -/
theorem Holds.merge (h : t.Holds times) (hpos : ∀ x ∈ entries, 0 < x.2) :
    (t.merge entries).Holds fun l => times l + mentions entries l := by
  induction entries generalizing t times with
  | nil => exact h
  | cons x entries ih =>
    have hrest := ih (h.add x.1 (hpos x List.mem_cons_self)) fun y hy =>
      hpos y (List.mem_cons_of_mem x hy)
    simp only [Nat.add_assoc, ← mentions_cons] at hrest
    exact hrest

/-- **Labels that are counted one after the other.** -/
theorem count_holds (labels : List String) : (count labels).Holds fun l => labels.count l := by
  have hmentions (l : String) : mentions (labels.map (·, 1)) l = labels.count l := by
    induction labels with
    | nil => rfl
    | cons x labels ih =>
      rw [List.map_cons, mentions_cons, ih, List.count_cons, Nat.add_comm]
      simp only [beq_iff_eq]
  have hmerge : count labels = merge ∅ (labels.map (·, 1)) := by
    unfold count merge
    rw [List.foldl_map]
  have hones : ∀ x ∈ labels.map (·, 1), 0 < x.2 := by simp
  have h := holds_empty.merge hones
  simp only [hmentions, Nat.zero_add] at h
  rwa [hmerge]

/-! ## Entries -/

/-- The entries of a tally have different labels. -/
theorem nodup_entries (hentries : entries.Perm t.toList) : (entries.map Prod.fst).Nodup := by
  rw [(hentries.map Prod.fst).nodup_iff, Std.HashMap.map_fst_toList_eq_keys]
  exact Std.HashMap.nodup_keys

theorem Holds.mem_entries (h : t.Holds times) (hentries : entries.Perm t.toList) {n : Nat} :
    (label, n) ∈ entries ↔ 0 < n ∧ n = times label := by
  rw [hentries.mem_iff, Std.HashMap.mem_toList_iff_getElem?_eq_some, h label]
  split
  · simp
    omega
  · rw [Option.some.injEq]
    omega

theorem mentions_of_notMem (h : label ∉ entries.map Prod.fst) : mentions entries label = 0 := by
  induction entries with
  | nil => rfl
  | cons x entries ih =>
    rw [List.map_cons, List.mem_cons, not_or] at h
    rw [mentions_cons, if_neg (Ne.symm h.1), ih h.2]

theorem mentions_of_mem (hentries : (entries.map Prod.fst).Nodup) {n : Nat}
    (h : (label, n) ∈ entries) : mentions entries label = n := by
  induction entries with
  | nil => exact nomatch h
  | cons x entries ih =>
    obtain ⟨hx, hentries⟩ := List.nodup_cons.1 hentries
    rw [mentions_cons]
    rcases List.mem_cons.1 h with rfl | h
    · rw [if_pos rfl, mentions_of_notMem hx, Nat.add_zero]
    · have hne : x.1 ≠ label := by
        rintro rfl
        exact hx (List.mem_map.2 ⟨_, h, rfl⟩)
      rw [if_neg hne, ih hentries h, Nat.zero_add]

/-- The entries of a tally mention what it holds, in whatever order they come. -/
theorem Holds.mentions (h : t.Holds times) (hentries : entries.Perm t.toList) (label : String) :
    mentions entries label = times label := by
  rcases Nat.eq_zero_or_pos (times label) with hzero | hpos
  · rw [hzero]
    refine mentions_of_notMem fun hmem => ?_
    obtain ⟨⟨l, n⟩, hx, rfl⟩ := List.mem_map.1 hmem
    have hn := (h.mem_entries hentries).1 hx
    dsimp only at hzero
    omega
  · exact mentions_of_mem (nodup_entries hentries) ((h.mem_entries hentries).2 ⟨hpos, rfl⟩)

/-- **The tallies of labels that are counted in parts.** A run of labels is counted at once; two parts
are merged by the entries of the second one, in any order. -/
inductive Gathered : Tally → List String → Prop
  | run (labels : List String) : Gathered (count labels) labels
  | join {left right : List String} {a b : Tally} {entries : List (String × Nat)} :
      Gathered a left → Gathered b right → entries.Perm b.toList → Gathered (a.merge entries) (left ++ right)

/-- **However labels are split, their tally holds how often each occurs.** -/
theorem Gathered.holds {labels : List String} (h : t.Gathered labels) :
    t.Holds fun l => labels.count l := by
  induction h with
  | run labels => exact count_holds labels
  | join _ _ hentries hleft hright =>
    have hmerge := hleft.merge fun x hx => ((hright.mem_entries hentries).1 hx).1
    simp only [hright.mentions hentries, ← List.count_append] at hmerge
    exact hmerge

/-- The counts of all labels sum to their number. -/
theorem Holds.sum_entries {labels : List String} (h : t.Holds fun l => labels.count l)
    (hentries : entries.Perm t.toList) : (entries.map Prod.snd).sum = labels.length := by
  have hcount : entries.map Prod.snd = (entries.map Prod.fst).map fun l => labels.count l := by
    rw [List.map_map]
    exact List.map_congr_left fun x hx => ((h.mem_entries hentries).1 hx).2
  have hkeys : (entries.map Prod.fst).Perm labels.dedup := by
    refine (List.perm_ext_iff_of_nodup (nodup_entries hentries) labels.nodup_dedup).2 fun l => ?_
    rw [List.mem_dedup]
    constructor
    · intro hl
      obtain ⟨x, hx, rfl⟩ := List.mem_map.1 hl
      obtain ⟨hpos, hn⟩ := (h.mem_entries hentries).1 hx
      exact List.count_pos_iff.1 (hn ▸ hpos)
    · intro hl
      have hmem := (h.mem_entries hentries).2 ⟨List.count_pos_iff.2 hl, rfl⟩
      exact List.mem_map.2 ⟨_, hmem, rfl⟩
  rw [hcount, (hkeys.map _).sum_eq, List.sum_map_count_dedup_eq_length]

end Tally

/-! ## The order of a distribution -/

namespace Distribution

/-- Of a larger count, or of the same count and an earlier label. -/
def Before (a b : String × Nat) : Prop := b.2 < a.2 ∨ a.2 = b.2 ∧ a.1 < b.1

theorem entryLe_iff {a b : String × Nat} :
    entryLe a b = true ↔ b.2 < a.2 ∨ a.2 = b.2 ∧ a.1 ≤ b.1 := by
  unfold entryLe
  rw [Bool.or_eq_true, Bool.and_eq_true, Bool.or_eq_true, decide_eq_true_eq, decide_eq_true_eq,
    beq_iff_eq, beq_iff_eq, le_iff_lt_or_eq, gt_iff_lt]

variable {entries entries' : List (String × Nat)}

/-- **The entries come in order**, if their labels are different. -/
theorem ofEntries_sorted (total : Nat) (h : (entries.map Prod.fst).Nodup) :
    (ofEntries total entries).entries.Pairwise Before := by
  have htrans (a b c : String × Nat) (hab : entryLe a b = true) (hbc : entryLe b c = true) :
      entryLe a c = true := by
    rw [entryLe_iff] at hab hbc ⊢
    rcases hab with hab | ⟨hab, hle⟩
    · rcases hbc with hbc | ⟨hbc, -⟩
      · exact .inl (hbc.trans hab)
      · exact .inl (hbc ▸ hab)
    · rcases hbc with hbc | ⟨hbc, hle'⟩
      · exact .inl (hab ▸ hbc)
      · exact .inr ⟨hab.trans hbc, hle.trans hle'⟩
  have htotal (a b : String × Nat) : (entryLe a b || entryLe b a) = true := by
    rw [Bool.or_eq_true, entryLe_iff, entryLe_iff]
    rcases lt_trichotomy b.2 a.2 with hlt | heq | hgt
    · exact .inl (.inl hlt)
    · exact (le_total a.1 b.1).imp (fun h => .inr ⟨heq.symm, h⟩) fun h => .inr ⟨heq, h⟩
    · exact .inr (.inl hgt)
  have hsorted := List.pairwise_mergeSort htrans htotal entries
  have hlabels : (entries.mergeSort entryLe).Pairwise fun a b => a.1 ≠ b.1 :=
    List.pairwise_map.1 (((List.mergeSort_perm entries entryLe).map Prod.fst).nodup_iff.2 h)
  refine (hsorted.and hlabels).imp fun ⟨hle, hne⟩ => ?_
  exact (entryLe_iff.1 hle).imp_right fun ⟨hcount, hlabel⟩ => ⟨hcount, lt_of_le_of_ne hlabel hne⟩

theorem Before.asymm {a b : String × Nat} (h : Before a b) : ¬ Before b a := by
  rintro (hlt | ⟨heq, hlt⟩)
  · rcases h with h | ⟨h, -⟩ <;> omega
  · rcases h with h | ⟨-, h⟩
    · omega
    · exact lt_asymm h hlt

/-- **A distribution does not depend on the order in which the entries came.** -/
theorem ofEntries_perm (total : Nat) (h : (entries.map Prod.fst).Nodup)
    (hperm : entries'.Perm entries) : ofEntries total entries' = ofEntries total entries := by
  have h' : (entries'.map Prod.fst).Nodup := (hperm.map Prod.fst).nodup_iff.2 h
  have hsame : (ofEntries total entries').entries.Perm (ofEntries total entries).entries :=
    (List.mergeSort_perm _ _).trans (hperm.trans (List.mergeSort_perm _ _).symm)
  have heq := hsame.eq_of_pairwise (fun _ _ _ _ hab hba => absurd hba hab.asymm)
    (ofEntries_sorted total h') (ofEntries_sorted total h)
  exact congrArg (Distribution.mk total) heq

end Distribution

/-- **The distribution of labels**, counted in any way. -/
theorem Tally.Gathered.ofEntries_eq {labels labels' : List String} {t : Tally}
    {entries : List (String × Nat)} (h : t.Gathered labels') (hentries : entries.Perm t.toList)
    (hlabels : labels'.Perm labels) :
    Distribution.ofEntries labels'.length entries = .ofLabels labels := by
  have hcounted := count_holds labels
  have hnodup : ((count labels).toList.map Prod.fst).Nodup := nodup_entries (.refl _)
  have hsame : entries.Perm (count labels).toList := by
    refine (List.perm_ext_iff_of_nodup (nodup_entries hentries).of_map hnodup.of_map).2 fun x => ?_
    rw [h.holds.mem_entries hentries, hcounted.mem_entries (.refl _), hlabels.count_eq]
  rw [hlabels.length_eq]
  exact Distribution.ofEntries_perm labels.length hnodup hsame

namespace Region

variable {R : Type} [Radius R]

/-- **The distribution of a region is exact.** Its total is the number of the positions, and so is the
sum of its counts. It has each label that stands at some position, once and with the number of the
positions at which it stands; larger counts come first, and of the same count the earlier label. In
whatever way the positions are split and their tallies merged, it comes out the same. -/
theorem distribution_exact (r : Region R) (w : World) (withStates : Bool) :
    let label (p : Pos) := (w.get ⟨r.dim, p⟩).label withStates
    let d := r.distribution w withStates
    (r.positions.Nodup ∧ ∀ p, p ∈ r.positions ↔ r.box.contains p = true ∧ r.contains p = true) ∧
      d.total = r.positions.length ∧ (d.entries.map Prod.snd).sum = d.total ∧
      (∀ l n, (l, n) ∈ d.entries ↔ 0 < n ∧ n = r.positions.countP fun p => label p = l) ∧
      (d.entries.map Prod.fst).Nodup ∧ d.entries.Pairwise Distribution.Before ∧
      ∀ (labels : List String) (t : Tally) (entries : List (String × Nat)),
        labels.Perm (r.positions.map label) → t.Gathered labels → entries.Perm t.toList →
          .ofEntries labels.length entries = d := by
  intro label d
  have hlabels : (r.entriesIn w).map (fun e => e.label withStates) = r.positions.map label :=
    List.map_map
  have hd : d = .ofLabels (r.positions.map label) := congrArg Distribution.ofLabels hlabels
  have hcounted := Tally.count_holds (r.positions.map label)
  have hentries : d.entries.Perm (Tally.count (r.positions.map label)).toList := by
    rw [hd]
    exact List.mergeSort_perm _ _
  have htotal : d.total = r.positions.length := by
    rw [hd]
    exact List.length_map _
  refine ⟨⟨r.positions_sorted.nodup, fun p => ?_⟩, htotal, ?_, fun l n => ?_,
    Tally.nodup_entries hentries, ?_, fun labels t entries hperm ht hent => ?_⟩
  · rw [positions, List.mem_filter, Box.mem_positions]
  · rw [hcounted.sum_entries hentries, htotal, List.length_map]
  · rw [hcounted.mem_entries hentries, List.count_eq_countP, List.countP_map]
    rfl
  · rw [hd]
    exact Distribution.ofEntries_sorted _ (Tally.nodup_entries (.refl _))
  · rw [hd]
    exact ht.ofEntries_eq hent hperm

/-- Stone beside an empty position, counted in two parts and from the last one on. -/
theorem distribution_exact_stone :
    let r : Region ℝ := ⟨0, .cuboid (.ofCorners .zero ⟨1, 0, 0⟩)⟩
    let w := World.empty.put ⟨0, .zero⟩ (.ofBlock (.ofName "minecraft:stone")) .quiet
    let parts := (Tally.count ["air"]).merge (Tally.count ["stone"]).toList
    .ofEntries 2 parts.toList = r.distribution w true ∧ ("stone", 1) ∈ (r.distribution w true).entries := by
  intro r w parts
  have hair : w.get ⟨0, ⟨1, 0, 0⟩⟩ = .air := by
    rw [World.get_put, if_neg (by decide)]
    exact Std.HashMap.getD_empty
  have hstone : w.get ⟨0, .zero⟩ = .ofBlock (.ofName "minecraft:stone") := by
    rw [World.get_put, if_pos rfl]
    rfl
  have hpositions : r.positions = [.zero, ⟨1, 0, 0⟩] := by decide
  have hlabels : r.positions.map (fun p => (w.get ⟨r.dim, p⟩).label true) = ["stone", "air"] := by
    rw [hpositions, List.map_cons, List.map_singleton]
    simp only [r, hair, hstone]
    decide
  obtain ⟨-, -, -, hmem, -, -, hsplit⟩ := distribution_exact r w true
  have hparts : parts.Gathered (["air"] ++ ["stone"]) := .join (.run _) (.run _) (.refl _)
  refine ⟨hsplit ["air", "stone"] parts _ ?_ hparts (.refl _), (hmem _ _).2 ⟨by decide, ?_⟩⟩
  · rw [hlabels]
    exact .swap _ _ _
  · rw [hpositions, List.countP_cons, List.countP_singleton]
    simp only [r, hair, hstone]
    decide

end Region

end VoxelEdit
