import Mathlib.Algebra.Order.Ring.Abs
import Mathlib.Tactic.NormNum
import Mathlib.Tactic.Ring
import VoxelEdit.Number.Width

/-!
# Numbers of fixed width

* `Number.Fits.of_abs_le`: a number fits if a bound on its size does.
* `Attains`: a computation that may stop gives the exact value, or it stops, and it may be safe from
  that. There is a lemma for each way in which computations are put together: one after the other
  (`Attains.bind`), by cases (`Attains.ite`), and along a list (`Attains.allM` and others).
* `abs_det_le`: twice the area of a triangle is at most that of a square around it. It is a difference
  of two products, and yet no greater than either may be.
-/

namespace VoxelEdit

/-! ## Numbers that fit -/

namespace Number

variable {n : ℕ} {v b : ℤ}

theorem cast_pow2 (n : ℕ) : ((pow2 n : ℕ) : ℤ) = 2 ^ n := by
  rw [pow2, Nat.pow_eq, Nat.cast_pow, Nat.cast_ofNat]

/-- A number that is less than what its bits can count fits with one bit for its sign. -/
theorem Fits.of_abs_le (hv : |v| ≤ b) (hb : b < 2 ^ n) : Fits (n + 1) v := by
  obtain ⟨hlow, hhigh⟩ := abs_le.1 hv
  have hwidth := cast_pow2 n
  rw [Fits, Nat.add_sub_cancel]
  omega

theorem fit?_of_fits (h : Fits n v) : fit? n v = some v := if_pos h

theorem fit?_of_not_fits (h : ¬ Fits n v) : fit? n v = none := if_neg h

end Number

/-! ## Computations that may stop -/

/-- A computation gives `a`, or else it stops. It does not stop if it is safe. -/
def Attains {α : Type} (safe : Prop) (x : Option α) (a : α) : Prop :=
  x = some a ∨ ¬ safe ∧ x = none

namespace Attains

variable {α β : Type} {safe : Prop} {x y : Option α} {a b : α}

theorem done (safe : Prop) (a : α) : Attains safe (some a) a := .inl rfl

/-- What is given is exact. -/
theorem eq_of_eq_some (h : Attains safe x a) (hx : x = some b) : b = a := by
  rcases h with h | ⟨-, h⟩
  · exact Option.some.inj (hx.symm.trans h)
  · exact nomatch hx.symm.trans h

theorem eq_some (h : Attains safe x a) (hs : safe) : x = some a :=
  h.resolve_right fun hx => hx.1 hs

theorem fit? {n : ℕ} {v : ℤ} (h : safe → Number.Fits n v) : Attains safe (Number.fit? n v) v := by
  by_cases hfits : Number.Fits n v
  · exact .inl (Number.fit?_of_fits hfits)
  · exact .inr ⟨fun hs => hfits (h hs), Number.fit?_of_not_fits hfits⟩

theorem bind {f : α → Option β} {c : β} (hx : Attains safe x a) (hf : Attains safe (f a) c) :
    Attains safe (x >>= f) c := by
  rcases hx with rfl | ⟨hs, rfl⟩
  · exact hf
  · exact .inr ⟨hs, rfl⟩

/-- What is computed is worked into something else. -/
theorem pure {f : α → β} (hx : Attains safe x a) : Attains safe (x >>= fun a => some (f a)) (f a) :=
  hx.bind (done safe _)

theorem ite {c : Prop} [Decidable c] (hx : c → Attains safe x a) (hy : ¬ c → Attains safe y b) :
    Attains safe (if c then x else y) (if c then a else b) := by
  by_cases hc : c
  · rw [if_pos hc, if_pos hc]
    exact hx hc
  · rw [if_neg hc, if_neg hc]
    exact hy hc

variable {as : List α}

theorem mapM {f? : α → Option β} {f : α → β} (h : ∀ a ∈ as, Attains safe (f? a) (f a)) :
    Attains safe (as.mapM f?) (as.map f) := by
  induction as with
  | nil => exact done safe _
  | cons a as ih =>
    obtain ⟨ha, has⟩ := List.forall_mem_cons.1 h
    rw [List.mapM_cons]
    exact ha.bind (ih has).pure

theorem allM {f? : α → Option Bool} {f : α → Bool} (h : ∀ a ∈ as, Attains safe (f? a) (f a)) :
    Attains safe (as.allM f?) (as.all f) := by
  induction as with
  | nil => exact done safe _
  | cons a as ih =>
    obtain ⟨ha, has⟩ := List.forall_mem_cons.1 h
    rw [List.allM, List.all_cons]
    refine ha.bind ?_
    cases f a with
    | false => exact done safe _
    | true => exact ih has

theorem findSomeM? {f? : α → Option (Option β)} {f : α → Option β}
    (h : ∀ a ∈ as, Attains safe (f? a) (f a)) :
    Attains safe (as.findSomeM? f?) (as.findSome? f) := by
  induction as with
  | nil => exact done safe _
  | cons a as ih =>
    obtain ⟨ha, has⟩ := List.forall_mem_cons.1 h
    rw [List.findSomeM?, List.findSome?_cons]
    refine ha.bind ?_
    cases f a with
    | some b => exact done safe _
    | none => exact ih has

theorem foldlM {f? : β → α → Option β} {f : β → α → β}
    (h : ∀ b, ∀ a ∈ as, Attains safe (f? b a) (f b a)) (b : β) :
    Attains safe (as.foldlM f? b) (as.foldl f b) := by
  induction as generalizing b with
  | nil => exact done safe _
  | cons a as ih =>
    rw [List.foldlM_cons, List.foldl_cons]
    exact (h b a List.mem_cons_self).bind
      (ih (fun b a ha => h b a (List.mem_cons_of_mem _ ha)) (f b a))

end Attains

/-! ## Products and areas -/

theorem abs_sub_le_of_abs_le {m x y : ℤ} (hx : |x| ≤ m) (hy : |y| ≤ m) : |x - y| ≤ 2 * m := by
  have h := abs_sub x y
  omega

theorem abs_mul_le_of_abs_le {k l x y : ℤ} (hx : |x| ≤ k) (hy : |y| ≤ l) : |x * y| ≤ k * l := by
  rw [abs_mul]
  exact mul_le_mul hx hy (abs_nonneg y) ((abs_nonneg x).trans hx)

section Square

variable {D u v w t : ℤ}

theorem abs_mix_le {k l x y : ℤ} (hk : 0 ≤ k) (hl : 0 ≤ l) (hkl : k + l ≤ D) (hx : |x| ≤ D)
    (hy : |y| ≤ D) : |k * x + l * y| ≤ D * D := calc
  |k * x + l * y| ≤ |k * x| + |l * y| := abs_add_le _ _
  _ = k * |x| + l * |y| := by rw [abs_mul, abs_mul, abs_of_nonneg hk, abs_of_nonneg hl]
  _ ≤ k * D + l * D := add_le_add (mul_le_mul_of_nonneg_left hx hk) (mul_le_mul_of_nonneg_left hy hl)
  _ = (k + l) * D := (add_mul k l D).symm
  _ ≤ D * D := mul_le_mul_of_nonneg_right hkl ((abs_nonneg x).trans hx)

/-- **Twice the area of a triangle in a square** is at most the area of the square. -/
theorem abs_det_le (hu : |u| ≤ D) (hv : |v| ≤ D) (huv : |u - v| ≤ D) (hw : |w| ≤ D) (ht : |t| ≤ D)
    (hwt : |w - t| ≤ D) : |u * t - w * v| ≤ D * D := by
  -- a triangle that is turned upside down has the same area
  wlog hpos : 0 ≤ t generalizing w t with hrec
  · have h := hrec (w := -w) (t := -t) (by rwa [abs_neg]) (by rwa [abs_neg])
      (by rwa [neg_sub_neg, abs_sub_comm]) (by omega)
    have hneg : u * -t - -w * v = -(u * t - w * v) := by ring
    rwa [hneg, abs_neg] at h
  obtain ⟨-, hw'⟩ := abs_le.1 hw
  obtain ⟨-, ht'⟩ := abs_le.1 ht
  rcases le_total w 0 with hw0 | hw0
  · obtain ⟨hlow, -⟩ := abs_le.1 hwt
    have hmix : u * t - w * v = t * u + -w * v := by ring
    rw [hmix]
    exact abs_mix_le hpos (by omega) (by omega) hu hv
  · rcases le_total w t with hle | hle
    · have hmix : u * t - w * v = w * (u - v) + (t - w) * u := by ring
      rw [hmix]
      exact abs_mix_le hw0 (by omega) (by omega) huv hu
    · have hmix : u * t - w * v = t * (u - v) + (w - t) * -v := by ring
      rw [hmix]
      exact abs_mix_le hpos (by omega) (by omega) huv (by rwa [abs_neg])

end Square

end VoxelEdit
