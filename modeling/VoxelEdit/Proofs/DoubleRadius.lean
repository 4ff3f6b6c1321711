import Mathlib
import VoxelEdit.Proofs.ProperShapes

/-!
# Doubles as radii

The radii that the program computes with are doubles. They are stored by their bits, and what the
operations of a sphere need of their arithmetic holds of the roundings that doubles have, however
large the radius is: `Doubles.storedRadius`.

A finite double that is not below one half has a mantissa of 53 bits and an exponent of at least
-53 (`large_of_not_lt_half`), and every such double is not below one half (`Large.not_lt_half`). So
the proofs follow exponents: a sum of such doubles has no smaller exponent than they have, and a
difference no larger one.
-/

namespace VoxelEdit.Doubles

open Number Float.Model Float.Model.UnpackedFloat

/-! ## Rounding -/

/-- A mantissa that fills the format. -/
def Full (m : Nat) : Prop := 2 ^ 52 ≤ m ∧ m < 2 ^ 53

theorem Full.pos {m : Nat} (h : Full m) : 0 < m := Nat.lt_of_lt_of_le (by decide) h.1

theorem Full.log2 {m : Nat} (h : Full m) : m.log2 = 52 :=
  (Nat.log2_eq_iff h.pos.ne').2 h

/-- The leading 53 bits of a number. -/
theorem full_div {m k : Nat} (h : m.log2 = 52 + k) : Full (m / 2 ^ k) := by
  have hm : m ≠ 0 := by
    rintro rfl
    simp at h
    omega
  obtain ⟨h1, h2⟩ := (Nat.log2_eq_iff hm).1 h
  refine ⟨(Nat.le_div_iff_mul_le (Nat.two_pow_pos k)).2 ?_,
    (Nat.div_lt_iff_lt_mul (Nat.two_pow_pos k)).2 ?_⟩
  · rwa [← Nat.pow_add]
  · rw [← Nat.pow_add]
    exact (show 53 + k = 52 + k + 1 by omega) ▸ h2

theorem shift_mantissa (em : ExtendedMantissa) (k : Nat) :
    (em >>> k).mantissa = em.mantissa / 2 ^ k := by
  induction k with
  | zero => exact (Nat.div_one _).symm
  | succ k ih =>
    show (em >>> k).mantissa / 2 = _
    rw [ih, Nat.div_div_eq_div_mul, ← Nat.pow_succ]

theorem roundedMantissa_bounds (em : ExtendedMantissa) :
    em.mantissa ≤ em.roundedMantissa ∧ em.roundedMantissa ≤ em.mantissa + 1 := by
  obtain ⟨m, round, sticky⟩ := em
  cases round <;> cases sticky <;>
    simp [ExtendedMantissa.roundedMantissa, ExtendedMantissa.accuracy, Accuracy.roundToNearestEven]
  omega

theorem ofMantissaAndAccuracy_mantissa (m : Nat) (a : Accuracy) :
    (ExtendedMantissa.ofMantissaAndAccuracy m a).mantissa = m := by
  cases a with
  | exact => rfl
  | inexact o => cases o <;> rfl

/-- The exponent that a mantissa with enough bits is shifted to. -/
theorem shiftToTargetExponent_eq {m k : Nat} {e : Int} (a : Accuracy) (hk : m.log2 = 52 + k)
    (he : -1074 ≤ e + k) : shiftToTargetExponent .binary64 m e a =
      (ExtendedMantissa.ofMantissaAndAccuracy m a >>> k, e + k) := by
  have htarget : Format.binary64.targetExponent (totalExponent m e) - e = k := by
    simp only [Format.targetExponent, totalExponent, Format.mantissaBits, Format.minExponent]
    omega
  unfold shiftToTargetExponent shiftToExponent
  dsimp only
  rw [htarget, Int.toNat_natCast]

/-- **A mantissa with enough bits is cut to 53 bits and rounded**; only if all of them are set can
the exponent grow once more. -/
theorem roundWithAccuracy_full (s : Sign) {m k : Nat} {e : Int} (a : Accuracy)
    (hk : m.log2 = 52 + k) (he : -1074 ≤ e + k) : ∃ m' e' h,
      roundWithAccuracy .binary64 s m e a = .finite s m' e' h ∧ Full m' ∧
        (e' = e + k ∨ e' = e + k + 1 ∧ m / 2 ^ k + 1 = 2 ^ 53) := by
  obtain ⟨hlow, hhigh⟩ := roundedMantissa_bounds (ExtendedMantissa.ofMantissaAndAccuracy m a >>> k)
  rw [shift_mantissa, ofMantissaAndAccuracy_mantissa] at hlow hhigh
  have hfull := full_div hk
  unfold roundWithAccuracy
  rw [shiftToTargetExponent_eq a hk he]
  dsimp only
  generalize ExtendedMantissa.roundedMantissa _ = r at hlow hhigh
  have hpos : 0 < r := Nat.lt_of_lt_of_le hfull.pos hlow
  rcases Nat.lt_or_ge r (2 ^ 53) with hr | hr
  · have hr' : Full r := ⟨hfull.1.trans hlow, hr⟩
    rw [shiftToTargetExponent_eq (k := 0) .exact hr'.log2 (by omega)]
    refine ⟨r, e + k + (0 : Nat), hpos, dif_neg hpos.ne', hr', .inl (by omega)⟩
  · have hr' : r = 2 ^ 53 := by have := hfull.2; omega
    subst hr'
    rw [shiftToTargetExponent_eq (k := 1) .exact Nat.log2_two_pow (by omega)]
    refine ⟨2 ^ 52, e + k + 1, by decide, rfl, ⟨le_rfl, by decide⟩, .inr ⟨rfl, ?_⟩⟩
    have := hfull.2
    omega

theorem log2_shiftLeft {m : Nat} (hm : 0 < m) (k : Nat) : (m <<< k).log2 = m.log2 + k := by
  rw [Nat.shiftLeft_eq]
  refine (Nat.log2_eq_iff (by positivity)).2 ⟨?_, ?_⟩
  · rw [Nat.pow_add]
    exact Nat.mul_le_mul_right _ (Nat.log2_self_le hm.ne')
  · rw [Nat.add_right_comm, Nat.pow_add]
    exact Nat.mul_lt_mul_of_pos_right Nat.lt_log2_self (Nat.two_pow_pos k)

/-- **A whole number times a power of two is rounded to 53 bits.** -/
theorem round_full (s : Sign) {m : Nat} {e : Int} (hm : 0 < m) (he : -1022 ≤ m.log2 + e) :
    ∃ m' e' h, UnpackedFloat.round .binary64 s m e = .finite s m' e' h ∧ Full m' ∧
      (e' = m.log2 + e - 52 ∨
        e' = m.log2 + e - 51 ∧ ∃ k, m.log2 = 52 + k ∧ m / 2 ^ k + 1 = 2 ^ 53) := by
  have htarget : Format.binary64.targetExponent (totalExponent m e) = m.log2 + e - 52 := by
    simp only [Format.targetExponent, totalExponent, Format.mantissaBits, Format.minExponent]
    omega
  unfold UnpackedFloat.round decreaseExponent
  dsimp only
  rw [htarget]
  rcases Nat.lt_or_ge m.log2 52 with h | h
  · -- the mantissa is extended, so that nothing is cut off
    have hshift : (e - (m.log2 + e - 52)).toNat = 52 - m.log2 := by omega
    have hlog : (m <<< (52 - m.log2)).log2 = 52 + 0 := by rw [log2_shiftLeft hm]; omega
    rw [hshift]
    obtain ⟨m', e', hpos, hround, hfull, hexp⟩ :=
      roundWithAccuracy_full s (e := e - (52 - m.log2 : Nat)) .exact hlog (by omega)
    refine ⟨m', e', hpos, hround, hfull, .inl ?_⟩
    rcases hexp with hexp | ⟨-, hall⟩
    · omega
    · -- the extension ends in zeros
      exfalso
      rw [Nat.pow_zero, Nat.div_one, Nat.shiftLeft_eq] at hall
      have hpow : 2 ^ (52 - m.log2) = 2 * 2 ^ (51 - m.log2) := by
        rw [← Nat.pow_succ']
        congr 1
        omega
      rw [hpow, Nat.mul_left_comm] at hall
      omega
  · obtain ⟨k, hk⟩ := Nat.exists_eq_add_of_le h
    have hshift : (e - (m.log2 + e - 52)).toNat = 0 := by omega
    rw [hshift, Nat.shiftLeft_zero]
    obtain ⟨m', e', hpos, hround, hfull, hexp⟩ :=
      roundWithAccuracy_full s (e := e - (0 : Nat)) .exact hk (by omega)
    refine ⟨m', e', hpos, hround, hfull, ?_⟩
    rcases hexp with hexp | ⟨hexp, hall⟩
    · exact .inl (by omega)
    · exact .inr ⟨by omega, k, hk, hall⟩

/-! ## Packing -/

/-- A full mantissa and an exponent in range are read back. -/
theorem unpack_pack_finite (s : Sign) {m : Nat} {e : Int} (h : 0 < m) (hm : Full m)
    (hlow : -1074 ≤ e) (hhigh : e ≤ 971) : (pack (.finite s m e h)).unpack = .finite s m e h := by
  have hbias : (e + Format.binary64.exponentBias +
      Format.binary64.mantissaBitsWithoutImplicit).toNat = (e + 1075).toNat := by
    show (e + (1023 : Nat) + (52 : Nat)).toNat = _
    omega
  have hlog : m.log2 + 1 = Format.binary64.mantissaBits := by rw [hm.log2]; rfl
  have hexp : (BitVec.ofNat 11 (e + 1075).toNat).toNat = (e + 1075).toNat := by
    rw [BitVec.toNat_ofNat]
    omega
  have hmantissa : (1#1 ++ BitVec.ofNat 52 m).toNat = m := by
    rw [BitVec.toNat_append, ← Nat.shiftLeft_add_eq_or_of_lt (BitVec.ofNat 52 m).isLt,
      BitVec.toNat_ofNat, Nat.shiftLeft_eq]
    have := hm.1
    have := hm.2
    simp only [BitVec.toNat_ofNat]
    omega
  -- so the exponent is neither the one of infinity nor the one of small numbers
  have hne (k : BitVec 11) (hk : (e + 1075).toNat ≠ k.toNat) :
      BitVec.ofNat 11 (e + 1075).toNat ≠ k :=
    fun heq => hk (hexp.symm.trans (congrArg BitVec.toNat heq))
  have hinf := hne (-1#11) (show (e + 1075).toNat ≠ 2047 by omega)
  have hzero := hne 0#11 (show (e + 1075).toNat ≠ 0 by omega)
  show UnpackedFloat.unpack .binary64 (UnpackedFloat.pack .binary64 _) = _
  rw [UnpackedFloat.pack]
  dsimp only
  rw [hbias, if_neg (by omega), if_pos hlog, UnpackedFloat.unpack]
  simp only [unpackMantissa_packComponents, unpackExponent_packComponents,
    unpackSign_packComponents, Sign.ofBitVec_toBitVec]
  rw [if_neg hinf, if_neg hzero]
  simp only [hmantissa, hexp]
  congr 1
  show ((e + 1075).toNat : Int) - ((1023 : Nat) + (52 : Nat)) = e
  omega

theorem unpack_pack_infinity (s : Sign) : (pack (.infinity s)).unpack = .infinity s := by
  cases s <;> rfl

/-- An exponent out of range is read back as infinity. -/
theorem unpack_pack_overflow (s : Sign) {m : Nat} {e : Int} (h : 0 < m) (hhigh : 971 < e) :
    (pack (.finite s m e h)).unpack = .infinity s := by
  have hbias : 2 ^ Format.binary64.exponentBits ≤
      (e + Format.binary64.exponentBias +
        Format.binary64.mantissaBitsWithoutImplicit).toNat + 1 := by
    show 2 ^ 11 ≤ (e + (1023 : Nat) + (52 : Nat)).toNat + 1
    omega
  show UnpackedFloat.unpack .binary64 (UnpackedFloat.pack .binary64 _) = _
  rw [UnpackedFloat.pack]
  dsimp only
  rw [if_pos hbias]
  exact unpack_pack_infinity s

/-- What a double can be read as. -/
theorem unpack_finite {x : Float.Model} {s : Sign} {m : Nat} {e : Int} {h : 0 < m}
    (hx : x.unpack = .finite s m e h) : m < 2 ^ 53 ∧ e ≤ 971 ∧ (Full m ∨ e = -1074) := by
  have hbias : ((Format.binary64.exponentBias : Nat) : Int) = 1023 := rfl
  unfold Float.Model.unpack UnpackedFloat.unpack at hx
  dsimp only at hx
  have hmantissa : (@unpackMantissa .binary64 x.toBits.toBitVec).toNat < 2 ^ 52 := BitVec.isLt _
  have hexponent : (@unpackExponent .binary64 x.toBits.toBitVec).toNat < 2 ^ 11 := BitVec.isLt _
  split at hx
  · split at hx <;> exact nomatch hx
  · rename_i hinf
    have hinf' : (@unpackExponent .binary64 x.toBits.toBitVec).toNat ≠ 2047 :=
      fun h => hinf (BitVec.eq_of_toNat_eq h)
    split at hx
    · rename_i hzero
      split at hx
      · exact nomatch hx
      · cases hx
        refine ⟨by omega, ?_, .inr ?_⟩
        · rw [hzero]
          decide
        · rw [hzero]
          decide
    · rename_i hzero
      cases hx
      have happ : (1#1 ++ @unpackMantissa .binary64 x.toBits.toBitVec).toNat =
          2 ^ 52 + (@unpackMantissa .binary64 x.toBits.toBitVec).toNat := by
        rw [BitVec.toNat_append, ← Nat.shiftLeft_add_eq_or_of_lt hmantissa, Nat.shiftLeft_eq]
        simp
      rw [happ]
      unfold Full
      omega

theorem isFinite_pack_finite (s : Sign) {m : Nat} {e : Int} (h : 0 < m) (hm : Full m)
    (hlow : -1074 ≤ e) (hhigh : e ≤ 971) : (pack (.finite s m e h)).unpack.isFinite = true := by
  rw [unpack_pack_finite s h hm hlow hhigh]
  rfl

/-! ## The parts of a double -/

/-- The sign, mantissa and exponent of a double. -/
def parts (x : Float) : UnpackedFloat := x.toModel.unpack

theorem parts_half : parts 0.5 = .finite .positive (2 ^ 52) (-53) (by decide) := rfl

theorem parts_six : parts 6.0 = .finite .positive (6 * 2 ^ 50) (-50) (by decide) := rfl

theorem parts_add (x y : Float) :
    parts (x + y) = (pack (.add .binary64 (parts x) (parts y))).unpack := rfl

theorem parts_mul (x y : Float) :
    parts (x * y) = (pack (.mul .binary64 (parts x) (parts y))).unpack := rfl

theorem parts_div (x y : Float) :
    parts (x / y) = (pack (.div .binary64 (parts x) (parts y))).unpack := rfl

theorem parts_neg (x : Float) : parts (Float.neg x) = (pack (parts x).neg).unpack := rfl

theorem isFinite_eq (x : Float) : Radius.isFinite x = (parts x).isFinite := rfl

theorem lt_eq (x y : Float) : Radius.lt x y = (parts x).lt (parts y) := by
  show decide (decide ((parts x).lt (parts y) = true) = true) = _
  simp

/-- Doubles that are at least one half: infinity and the full mantissas with a large exponent. -/
inductive Large : UnpackedFloat → Prop
  | infinity : Large (.infinity .positive)
  | finite {m : Nat} {e : Int} (h : 0 < m) : Full m → -53 ≤ e → Large (.finite .positive m e h)

/-- Only the smallest exponent goes with a mantissa that is not full. -/
theorem Large.of_parts {x : Float} {m : Nat} {e : Int} {h : 0 < m}
    (hx : parts x = .finite .positive m e h) (he : -53 ≤ e) : Large (.finite .positive m e h) := by
  refine .finite h ?_ he
  rcases (unpack_finite hx).2.2 with hm | rfl
  · exact hm
  · exact absurd he (by decide)

theorem Large.not_lt_half {x : Float} (hx : Large (parts x)) :
    Radius.lt x (Radius.half : Float) = false := by
  rw [lt_eq, show parts (Radius.half : Float) = _ from parts_half]
  generalize parts x = u at hx
  cases hx with
  | infinity => rfl
  | finite h hm he =>
    rename_i m e
    show (some ((compare e (-53)).then (compare m (2 ^ 52))) == some .lt) = false
    rcases Int.lt_or_eq_of_le he with he | rfl
    · rw [Int.compare_eq_gt.2 he]
      rfl
    · rw [Int.compare_eq_eq.2 rfl]
      rcases Nat.lt_or_eq_of_le hm.1 with hm | rfl
      · rw [Nat.compare_eq_gt.2 hm]
        rfl
      · rfl

/-- **A double that is not below one half is large**, if it is a number. -/
theorem large_of_not_lt_half {x : Float} (hnan : parts x ≠ .notANumber)
    (hx : Radius.lt x (Radius.half : Float) = false) : Large (parts x) := by
  rw [lt_eq, show parts (Radius.half : Float) = _ from parts_half] at hx
  cases hparts : parts x with
  | notANumber => exact absurd hparts hnan
  | infinity s =>
    rw [hparts] at hx
    cases s with
    | positive => exact .infinity
    | negative => exact nomatch hx
  | zero s =>
    rw [hparts] at hx
    cases s <;> exact nomatch hx
  | finite s m e h =>
    rw [hparts] at hx
    cases s with
    | negative => exact nomatch hx
    | positive =>
      have hcompare : (some ((compare e (-53)).then (compare m (2 ^ 52))) == some .lt) = false := hx
      have he : -53 ≤ e := by
        by_contra hlt
        rw [Int.compare_eq_lt.2 (by omega)] at hcompare
        exact nomatch hcompare
      exact .of_parts hparts he

/-! ## Whole numbers -/

theorem parts_ofNat {n : Nat} (h0 : 0 < n) (h1 : n < 2 ^ 34) : ∃ m e h,
    parts (Float.ofNat n) = .finite .positive m e h ∧ Full m ∧ -52 ≤ e ∧ e ≤ -17 := by
  have hfast : Float.ofNat n = n.toUInt64.toFloat * Float.ofBits 0x3FF0000000000000 := by
    have : n < 2 ^ 53 ∧ 0 ≤ 22 := ⟨by omega, by decide⟩
    show Float.ofScientific n false 0 = _
    unfold Float.ofScientific
    rw [dif_pos this]
    rfl
  have hone : parts (Float.ofBits 0x3FF0000000000000) =
      .finite .positive (2 ^ 52) (-52) (by decide) := rfl
  have hlog : n.log2 ≤ 33 := by
    have := (Nat.log2_lt h0.ne').2 h1
    omega
  obtain ⟨m, e, h, hround, hm, he⟩ := round_full .positive (e := 0) h0 (by omega)
  have hpack := unpack_pack_finite (e := e) .positive h hm (by omega) (by omega)
  have hword : parts n.toUInt64.toFloat = .finite .positive m e h := by
    show (pack (UnpackedFloat.normalize .binary64
      ((n.toUInt64.toNat : Nat) : Int) 0 .positive)).unpack = _
    have hnat : n.toUInt64.toNat = n := Nat.mod_eq_of_lt (by omega)
    rw [hnat, UnpackedFloat.normalize, Int.compare_eq_gt.2 (by omega)]
    show (pack (UnpackedFloat.round .binary64 .positive ((n : Int).toNat) 0)).unpack = _
    rw [Int.toNat_natCast, hround, hpack]
  -- the factor one keeps the bits, but we only need the exponent
  have hmul : (m * 2 ^ 52).log2 = 52 + 52 := by
    rw [← Nat.shiftLeft_eq, log2_shiftLeft h, hm.log2]
  obtain ⟨m', e', h', hround', hm', he'⟩ :=
    roundWithAccuracy_full .positive (e := e + -52) .exact hmul (by omega)
  refine ⟨m', e', h', ?_, hm', by omega, by omega⟩
  rw [hfast, parts_mul, hword, hone]
  show (pack (roundWithAccuracy .binary64 .positive (m * 2 ^ 52) (e + -52) .exact)).unpack = _
  rw [hround', unpack_pack_finite .positive h' hm' (by omega) (by omega)]

theorem parts_ofInt_zero : parts (Float.ofInt 0) = .zero .positive := rfl

theorem parts_ofInt {n : Int} (h0 : 0 < n) (h1 : n < 2 ^ 34) : ∃ m e h,
    parts (Float.ofInt n) = .finite .positive m e h ∧ Full m ∧ -52 ≤ e ∧ e ≤ -17 := by
  obtain ⟨k, rfl⟩ := Int.eq_ofNat_of_zero_le h0.le
  exact parts_ofNat (by omega) (by omega)

theorem parts_ofInt_neg {n : Int} (h0 : 0 < n) (h1 : n < 2 ^ 34) : ∃ m e h,
    parts (Float.ofInt (-n)) = .finite .negative m e h ∧ Full m ∧ -52 ≤ e ∧ e ≤ -17 := by
  obtain ⟨k, rfl⟩ := Int.eq_succ_of_zero_lt h0
  obtain ⟨m, e, h, hparts, hm, he⟩ := parts_ofNat (n := k + 1) (by omega) (by omega)
  refine ⟨m, e, h, ?_, hm, he⟩
  show parts (Float.neg (Float.ofNat (k + 1))) = _
  rw [parts_neg, hparts]
  exact unpack_pack_finite .negative h hm (by omega) (by omega)

/-! ## Sums and differences -/

/-- The sum of two finite parts before it is rounded. -/
theorem parts_add_finite {x y : Float} {s t : Sign} {m n : Nat} {d e : Int} {hm : 0 < m}
    {hn : 0 < n} (hx : parts x = .finite s m d hm) (hy : parts y = .finite t n e hn) :
    parts (x + y) = (pack (UnpackedFloat.normalize .binary64
      (s.apply (m <<< (d - min d e).toNat : Nat) + t.apply (n <<< (e - min d e).toNat : Nat))
      (min d e) .positive)).unpack := by
  rw [parts_add, hx, hy]
  rfl

/-- **A sum of large doubles is large.** -/
theorem Large.add {x y : Float} (hx : Large (parts x)) (hy : Large (parts y)) :
    Large (parts (x + y)) := by
  generalize hpx : parts x = u at hx
  generalize hpy : parts y = v at hy
  cases hx with
  | infinity =>
    have hsum : parts (x + y) = (pack (.infinity .positive)).unpack := by
      rw [parts_add, hpx, hpy]
      cases hy <;> rfl
    rw [hsum, unpack_pack_infinity]
    exact .infinity
  | finite h hm hd =>
    rename_i m d
    cases hy with
    | infinity =>
      have hsum : parts (x + y) = (pack (.infinity .positive)).unpack := by
        rw [parts_add, hpx, hpy]
        rfl
      rw [hsum, unpack_pack_infinity]
      exact .infinity
    | finite h' hn he =>
      rename_i n e
      rw [parts_add_finite hpx hpy]
      set a := (d - min d e).toNat
      set b := (e - min d e).toNat
      have hle : m ≤ m <<< a := by
        rw [Nat.shiftLeft_eq]
        exact Nat.le_mul_of_pos_right _ (Nat.two_pow_pos a)
      have hsum : 2 ^ 52 ≤ m <<< a + n <<< b := hm.1.trans (hle.trans (Nat.le_add_right _ _))
      have hlog : 52 ≤ (m <<< a + n <<< b).log2 := (Nat.le_log2 (by omega)).2 hsum
      obtain ⟨m', e', hpos, hround, hfull, hexp⟩ := round_full .positive (e := min d e)
        (show 0 < m <<< a + n <<< b by omega) (by omega)
      show Large (pack (UnpackedFloat.normalize .binary64
        (((m <<< a : Nat) : Int) + ((n <<< b : Nat) : Int)) (min d e) .positive)).unpack
      rw [← Int.natCast_add, UnpackedFloat.normalize, Int.compare_eq_gt.2 (by omega)]
      show Large (pack (UnpackedFloat.round .binary64 .positive
        (((m <<< a + n <<< b : Nat) : Int).toNat) (min d e))).unpack
      rw [Int.toNat_natCast, hround]
      rcases Int.lt_or_le 971 e' with he' | he'
      · rw [unpack_pack_overflow .positive hpos he']
        exact .infinity
      · rw [unpack_pack_finite .positive hpos hfull (by omega) he']
        exact .finite hpos hfull (by omega)

/-- What is rounded below a full mantissa does not overflow. -/
theorem isFinite_pack_round (s : Sign) {m q a : Nat} {e : Int} (hm : 0 < m) (hq : Full q)
    (hlt : m < q <<< a) (hlow : -1022 ≤ e) (hhigh : e + a ≤ 971) :
    (pack (UnpackedFloat.round .binary64 s m e)).unpack.isFinite = true := by
  have hlog : m.log2 ≤ 52 + a := by
    rw [← hq.log2, ← log2_shiftLeft hq.pos]
    exact (Nat.le_log2 (by omega)).2 ((Nat.log2_self_le hm.ne').trans hlt.le)
  obtain ⟨m', e', hpos, hround, hfull, hexp⟩ := round_full s (e := e) hm (by omega)
  rw [hround]
  refine isFinite_pack_finite s hpos hfull (by omega) ?_
  rcases hexp with hexp | ⟨hexp, k, hk, hall⟩
  · omega
  · -- all leading bits of `m` are set, so `q` would have to be larger
    have hka : k ≠ a := by
      rintro rfl
      have hdiv : m / 2 ^ k < q := by
        rwa [Nat.div_lt_iff_lt_mul (Nat.two_pow_pos k), ← Nat.shiftLeft_eq]
      have := hq.2
      omega
    omega

/-- **A double minus a small whole number does not overflow.** -/
theorem isFinite_sub {x y : Float} {m n : Nat} {d e : Int} {hm : 0 < m} {hn : 0 < n}
    (hx : parts x = .finite .positive m d hm) (hy : parts y = .finite .negative n e hn)
    (hmf : Full m) (hnf : Full n) (hd : -53 ≤ d) (he : -53 ≤ e) (hd' : d ≤ 971) (he' : e ≤ 971) :
    (parts (x + y)).isFinite = true := by
  rw [parts_add_finite hx hy]
  set a := (d - min d e).toNat
  set b := (e - min d e).toNat
  have hn' : 0 < n <<< b := by rw [Nat.shiftLeft_eq]; positivity
  have hm' : 0 < m <<< a := by rw [Nat.shiftLeft_eq]; positivity
  show (pack (UnpackedFloat.normalize .binary64 (((m <<< a : Nat) : Int) +
    -((n <<< b : Nat) : Int)) (min d e) .positive)).unpack.isFinite = true
  rcases Int.lt_trichotomy (((m <<< a : Nat) : Int) + -((n <<< b : Nat) : Int)) 0 with h | h | h
  · rw [UnpackedFloat.normalize, Int.compare_eq_lt.2 h]
    exact isFinite_pack_round .negative (by omega) hnf (a := b) (by omega) (by omega) (by omega)
  · rw [UnpackedFloat.normalize, Int.compare_eq_eq.2 h]
    show (pack (.zero .positive)).unpack.isFinite = true
    rfl
  · rw [UnpackedFloat.normalize, Int.compare_eq_gt.2 h]
    exact isFinite_pack_round .positive (by omega) hmf (a := a) (by omega) (by omega) (by omega)

/-! ## Sixths -/

/-- The quotient by six of a small whole number is finite. -/
theorem isFinite_div_six {x : Float} {m : Nat} {e : Int} {h : 0 < m}
    (hx : parts x = .finite .positive m e h) (hm : Full m) (he : -52 ≤ e) (he' : e ≤ 0) :
    (parts (x / 6.0)).isFinite = true := by
  have hsix : Full (6 * 2 ^ 50) := ⟨by decide, by decide⟩
  have hcore : divCore .binary64 m e (6 * 2 ^ 50) (-50) =
      (m <<< 53 / (6 * 2 ^ 50), e - 3,
        accuracyOfFraction (m <<< 53 % (6 * 2 ^ 50)) (6 * 2 ^ 50)) := by
    have htarget : min (e - -50) (Format.binary64.targetExponent
        (totalExponent m e - totalExponent (6 * 2 ^ 50) (-50))) = e - 3 := by
      simp only [Format.targetExponent, totalExponent, Format.mantissaBits, Format.minExponent,
        hm.log2, hsix.log2]
      omega
    unfold divCore
    dsimp only
    rw [htarget, show (e - -50 - (e - 3)).toNat = 53 by omega]
  -- the quotient has 53 or 54 bits
  have hlow : 2 ^ 52 ≤ m <<< 53 / (6 * 2 ^ 50) := by
    have := hm.1
    rw [Nat.shiftLeft_eq]
    omega
  have hhigh : m <<< 53 / (6 * 2 ^ 50) < 2 ^ 54 := by
    have := hm.2
    rw [Nat.shiftLeft_eq]
    omega
  have hlog : 52 ≤ (m <<< 53 / (6 * 2 ^ 50)).log2 := (Nat.le_log2 (by omega)).2 hlow
  have hlog' : (m <<< 53 / (6 * 2 ^ 50)).log2 < 54 := (Nat.log2_lt (by omega)).2 hhigh
  obtain ⟨k, hk⟩ := Nat.exists_eq_add_of_le hlog
  obtain ⟨m', e', hpos, hround, hfull, hexp⟩ := roundWithAccuracy_full .positive (e := e - 3)
    (accuracyOfFraction (m <<< 53 % (6 * 2 ^ 50)) (6 * 2 ^ 50)) hk (by omega)
  rw [parts_div, hx, parts_six, UnpackedFloat.div, hcore]
  dsimp only
  show (pack (roundWithAccuracy .binary64 .positive _ _ _)).unpack.isFinite = true
  rw [hround]
  exact isFinite_pack_finite .positive hpos hfull (by omega) (by omega)

/-! ## The radii of the program -/

theorem parts_ne_notANumber {x : Float} (hx : Radius.isFinite x = true) :
    parts x ≠ .notANumber := by
  intro h
  rw [isFinite_eq, h] at hx
  exact nomatch hx

/-- A finite large double. -/
theorem exists_parts {x : Float} (hx : Radius.isFinite x = true)
    (hlarge : Large (parts x)) : ∃ m e h, parts x = .finite .positive m e h ∧ Full m ∧ -53 ≤ e ∧
      e ≤ 971 := by
  rw [isFinite_eq] at hx
  generalize hpx : parts x = u at hx hlarge
  cases hlarge with
  | infinity => exact nomatch hx
  | finite h hm he => exact ⟨_, _, h, rfl, hm, he, (unpack_finite hpx).2.1⟩

/-- Adding zero keeps a finite large double. -/
theorem parts_add_zero {x : Float} (hx : Radius.isFinite x = true) (hlarge : Large (parts x)) :
    parts (x + Float.ofInt 0) = parts x := by
  obtain ⟨m, e, h, hparts, hm, hlow, hhigh⟩ := exists_parts hx hlarge
  rw [parts_add, parts_ofInt_zero, hparts]
  exact unpack_pack_finite .positive h hm (by omega) hhigh

/-- What is larger than a large double is large. -/
theorem large_of_lt {r d : Float} (hr : Large (parts r)) (hlt : Radius.lt r d = true) :
    Large (parts d) := by
  rw [lt_eq] at hlt
  generalize hpr : parts r = u at hr hlt
  cases hpd : parts d with
  | notANumber =>
    rw [hpd] at hlt
    cases hr <;> exact nomatch hlt
  | infinity s =>
    rw [hpd] at hlt
    cases s with
    | positive => exact .infinity
    | negative => cases hr <;> exact nomatch hlt
  | zero s =>
    rw [hpd] at hlt
    cases hr <;> cases s <;> exact nomatch hlt
  | finite s n e h =>
    rw [hpd] at hlt
    cases hr with
    | infinity => cases s <;> exact nomatch hlt
    | finite h' hm hd =>
      rename_i m d
      cases s with
      | negative => exact nomatch hlt
      | positive =>
        have hcompare : (some ((compare d e).then (compare m n)) == some .lt) = true := hlt
        have he : -53 ≤ e := by
          by_contra hgt
          rw [Int.compare_eq_gt.2 (by omega)] at hcompare
          exact nomatch hcompare
        exact .of_parts hpd he

/-- **Doubles are radii that are stored as they are.** -/
instance storedRadius : StoredRadius Float where
  bits := Float.toBits
  toTag_eq _ := rfl
  ofTag?_toTag x := congrArg some (Float.ofBits_toBits x)
  half_finite := rfl
  half_not_lt := Large.not_lt_half (.finite (by decide) ⟨by decide, by decide⟩ (by decide))
  sixth_finite {n} h0 h1 := by
    rw [isFinite_eq]
    show (parts (Float.ofInt n / 6.0)).isFinite = true
    rcases Int.lt_or_eq_of_le h0 with h0 | rfl
    · obtain ⟨m, e, h, hparts, hm, hlow, hhigh⟩ :=
        parts_ofInt h0 (Int.lt_of_le_of_lt h1 (by decide))
      exact isFinite_div_six hparts hm hlow (by omega)
    · rfl
  plusHalf_not_lt {r d} hr hd := by
    have hnan : parts r ≠ .notANumber := by
      intro h
      rw [lt_eq, h] at hd
      exact nomatch hd
    have hhalf : Large (parts 0.5) := .finite (by decide) ⟨by decide, by decide⟩ (by decide)
    exact ((large_of_lt (large_of_not_lt_half hnan hr) hd).add hhalf).not_lt_half
  plus_not_lt {r n} hr hlow h0 h1 := by
    have hlarge := large_of_not_lt_half (parts_ne_notANumber hr) hlow
    have hsum : Large (parts (r + Float.ofInt n)) := by
      rcases Int.lt_or_eq_of_le h0 with h0 | rfl
      · obtain ⟨m, e, h, hparts, hm, hexp, -⟩ :=
          parts_ofInt h0 (Int.lt_of_le_of_lt h1 (by decide))
        exact hlarge.add (hparts ▸ .finite h hm (by omega))
      · rwa [parts_add_zero hr hlarge]
    exact hsum.not_lt_half
  minus_finite {r n} hr hlow h0 h1 := by
    have hlarge := large_of_not_lt_half (parts_ne_notANumber hr) hlow
    rw [isFinite_eq]
    show (parts (r + Float.ofInt (-n))).isFinite = true
    rcases Int.lt_or_eq_of_le h0 with h0 | rfl
    · obtain ⟨m, e, h, hparts, hm, hexp, hexp'⟩ := exists_parts hr hlarge
      obtain ⟨m', e', h', hparts', hm', hlow', hhigh'⟩ :=
        parts_ofInt_neg h0 (Int.lt_of_le_of_lt h1 (by decide))
      exact isFinite_sub hparts hparts' hm hm' hexp (by omega) hexp' (by omega)
    · rw [Int.neg_zero, parts_add_zero hr hlarge]
      exact hr

end VoxelEdit.Doubles
