import Mathlib.Tactic.Ring
import VoxelEdit.Player.Id
import VoxelEdit.Player.Store

/-!
# Keys of players

Sessions are stored under the texts of identities. Different identities have different texts
(`PlayerId.text_injective`), and a store keeps what is under one key when another one is written or
erased.
-/

namespace VoxelEdit

namespace PlayerId

/-! ## Texts -/

theorem length_digits (n b : Nat) : (digits n b).length = n := by
  induction n generalizing b with
  | zero => rfl
  | succ n ih => rw [digits, List.length_append, ih, List.length_singleton]

theorem digitChar_inj {m n : Nat} (hm : m < 16) (hn : n < 16) (h : m.digitChar = n.digitChar) :
    m = n := by
  have hall : ∀ i : Fin 16, ∀ j : Fin 16, i.val.digitChar = j.val.digitChar → i.val = j.val := by
    decide
  exact hall ⟨m, hm⟩ ⟨n, hn⟩ h

theorem dash_notMem_digits (n b : Nat) : '-' ∉ digits n b := by
  induction n generalizing b with
  | zero => exact List.not_mem_nil
  | succ n ih =>
    have hall : ∀ i : Fin 16, '-' ≠ i.val.digitChar := by decide
    rw [digits, List.mem_append, not_or, List.mem_singleton]
    exact ⟨ih _, hall ⟨b % 16, Nat.mod_lt _ (by decide)⟩⟩

/-- The digits tell the number, as far as they reach. -/
theorem digits_inj {n b c : Nat} (h : digits n b = digits n c) : b % 16 ^ n = c % 16 ^ n := by
  induction n generalizing b c with
  | zero => rw [Nat.pow_zero, Nat.mod_one, Nat.mod_one]
  | succ n ih =>
    obtain ⟨hrest, hlast⟩ := List.append_inj' h rfl
    have hdigit : b % 16 = c % 16 := digitChar_inj (Nat.mod_lt _ (by decide))
      (Nat.mod_lt _ (by decide)) (List.singleton_inj.1 hlast)
    rw [Nat.pow_succ', Nat.mod_mul, Nat.mod_mul, hdigit, ih hrest]

/-- The pieces of a list make up what they were cut from. -/
theorem flatten_cut {α : Type} (lengths : List Nat) (xs : List α) :
    (cut lengths xs).flatten = xs.take lengths.sum := by
  induction lengths generalizing xs with
  | nil => simp [cut]
  | cons n ns ih => rw [cut, List.flatten_cons, ih, List.sum_cons, List.take_add]

theorem mem_of_mem_cut {α : Type} {lengths : List Nat} {xs piece : List α} {x : α}
    (hpiece : piece ∈ cut lengths xs) (hx : x ∈ piece) : x ∈ xs := by
  have := List.mem_flatten.2 ⟨piece, hpiece, hx⟩
  rw [flatten_cut] at this
  exact List.mem_of_mem_take this

/-- **Different identities have different texts.** -/
theorem text_injective {id id' : PlayerId} (h : id.text = id'.text) : id = id' := by
  have hpieces (id : PlayerId) :
      id.text.toList.splitOn '-' = cut groups (digits length id.bits.toNat) := by
    rw [text, String.toList_intercalate, List.map_map]
    have hmap : (cut groups (digits length id.bits.toNat)).map (String.toList ∘ String.ofList) =
        cut groups (digits length id.bits.toNat) := by
      simp
    rw [hmap]
    refine List.splitOn_intercalate '-' (fun piece hpiece hdash => ?_) (by simp [cut, groups])
    exact dash_notMem_digits _ _ (mem_of_mem_cut hpiece hdash)
  -- joined again, the pieces are all the digits
  have hdigits : digits length id.bits.toNat = digits length id'.bits.toNat := by
    have htext := congrArg (fun s => s.toList.splitOn '-') h
    have hcut := (hpieces id).symm.trans (htext.trans (hpieces id'))
    have hflat := congrArg List.flatten hcut
    rw [flatten_cut, flatten_cut, List.take_of_length_le (by rw [length_digits]; decide),
      List.take_of_length_le (by rw [length_digits]; decide)] at hflat
    exact hflat
  have hmod := digits_inj hdigits
  rw [show 16 ^ length = 2 ^ 128 from rfl, Nat.mod_eq_of_lt id.bits.isLt,
    Nat.mod_eq_of_lt id'.bits.isLt] at hmod
  cases id
  cases id'
  exact congrArg mk (BitVec.eq_of_toNat_eq hmod)

end PlayerId

namespace Store

variable {s s' : Store} {key key' : String} {bytes : List UInt8}

/-! ## Stores -/

theorem get?_erase_self (s : Store) (key : String) : (s.erase key).get? key = none := by
  refine List.lookup_eq_none_iff.2 fun e he => ?_
  have hne := of_decide_eq_true (List.mem_filter.1 he).2
  rwa [bne_iff_ne, ne_comm]

theorem get?_erase_of_ne (s : Store) (h : key' ≠ key) : (s.erase key).get? key' = s.get? key' := by
  obtain ⟨entries, refusing⟩ := s
  show (entries.filter fun e => e.1 ≠ key).lookup key' = entries.lookup key'
  induction entries with
  | nil => rfl
  | cons e entries ih =>
    rw [List.filter_cons, List.lookup_cons]
    by_cases he : e.1 = key
    · rw [if_neg (by rw [he]; simp), ih, he, beq_eq_false_iff_ne.2 h]
    · rw [if_pos (by simp [he]), List.lookup_cons, ih]

theorem get?_set_self (h : s.set? key bytes = some s') : s'.get? key = some bytes := by
  unfold set? at h
  split at h
  · exact nomatch h
  · rw [← Option.some.inj h]
    exact List.lookup_cons_self

theorem get?_set_of_ne (h : s.set? key bytes = some s') (hkey : key' ≠ key) :
    s'.get? key' = s.get? key' := by
  unfold set? at h
  split at h
  · exact nomatch h
  · rw [← Option.some.inj h, ← s.get?_erase_of_ne hkey]
    show List.lookup _ (_ :: _) = _
    rw [List.lookup_cons, beq_eq_false_iff_ne.2 hkey]
    rfl

/-- A store that accepts a write goes on accepting. -/
theorem refusing_set (h : s.set? key bytes = some s') : s'.refusing = s.refusing := by
  unfold set? at h
  split at h
  · exact nomatch h
  · rw [← Option.some.inj h]

theorem set?_isSome (h : s.refusing = false) (key : String) (bytes : List UInt8) :
    ∃ s', s.set? key bytes = some s' := by
  unfold set?
  rw [h]
  exact ⟨_, rfl⟩

end Store

end VoxelEdit
