/-
LazyExpr/Proofs/Decimal/Value.lean

The number that a decimal stands for, and the normal form as its name.

`toRat` is the meaning of a decimal: `mantissa * 10 ^ (-scale)` as a rational.  Two
forms of one number differ by zeros at the end of the mantissa, so everything is
brought to a common scale first (`toRat_eq_mantissaAt`): there the numbers are equal
exactly when the integers are.  The exact operations are those of the rationals.

`normalize` drops the zeros.  It keeps the number (`toRat_normalize`), its result has
none left (`isNormal_normalize`), and a number has one form without them
(`IsNormal.eq_of_toRat_eq`): together, two decimals have the same normal form exactly
when they stand for the same number.

Whether a number is an integer can be read off its normal form, and so can the integer
(`isInteger_iff`, `toInt64?_eq_some_iff`, `toUInt32?_eq_some_iff`).  Dividing the mantissa
cuts off the digits after the point, toward zero (`tdiv_powTen_eq_truncate`).
-/
import LazyExpr.Decimal.Basic
import Mathlib.Algebra.Order.Field.Power
import Mathlib.Data.Rat.Floor
import Mathlib.Tactic.Ring
import Mathlib.Tactic.Linarith

namespace LazyExpr.Decimal

/-- The number that a decimal stands for. -/
def toRat (d : Decimal) : ℚ := d.mantissa * (10 : ℚ) ^ (-d.scale)

/-! ### A common scale -/

theorem toRat_eq_mantissaAt {d : Decimal} {s : Int} (h : d.scale ≤ s) :
    d.toRat = (d.mantissaAt s : ℚ) * (10 : ℚ) ^ (-s) := by
  obtain ⟨k, hk⟩ : ∃ k : Nat, s - d.scale = k := Int.eq_ofNat_of_zero_le (by omega)
  have hpow : (10 : ℚ) ^ (-d.scale) = 10 ^ k * 10 ^ (-s) := by
    rw [show -d.scale = (k : Int) + -s by omega, zpow_add₀ (by norm_num), zpow_natCast]
  have hm : (d.mantissaAt s : ℚ) = d.mantissa * 10 ^ k := by
    simp [mantissaAt, powTen, hk]
  rw [toRat, hpow, hm, mul_assoc]

theorem toRat_eq_iff_of_scale_le {a b : Decimal} (h : a.scale ≤ b.scale) :
    a.toRat = b.toRat ↔ a.mantissaAt b.scale = b.mantissa := by
  have hpos : (10 : ℚ) ^ (-b.scale) ≠ 0 := (zpow_pos (by norm_num) _).ne'
  rw [toRat_eq_mantissaAt h, toRat, mul_left_inj' hpos, Int.cast_inj]

@[simp] theorem toRat_zero : zero.toRat = 0 := by simp [toRat, zero, ofInt]

theorem toRat_neg (d : Decimal) : d.neg.toRat = -d.toRat := by simp [toRat, neg]

/-! ### Arithmetic -/

theorem toRat_eq_zero_of_isZero {d : Decimal} (h : d.isZero = true) : d.toRat = 0 := by
  have hm : d.mantissa = 0 := by simpa [isZero] using h
  simp [toRat, hm]

theorem isNegative_iff {d : Decimal} : d.isNegative = true ↔ d.toRat < 0 := by
  have hpos : (0 : ℚ) < 10 ^ (-d.scale) := zpow_pos (by norm_num) _
  rw [isNegative, decide_eq_true_iff, toRat, ← Int.cast_lt_zero (R := ℚ)]
  exact ⟨fun h => mul_neg_of_neg_of_pos h hpos, fun h => neg_of_mul_neg_left h hpos.le⟩

theorem toRat_add (a b : Decimal) : (a + b).toRat = a.toRat + b.toRat := by
  show (a.add b).toRat = _
  unfold add
  split
  · next ha => rw [toRat_eq_zero_of_isZero ha, zero_add]
  · split
    · next hb => rw [toRat_eq_zero_of_isZero hb, add_zero]
    · rw [toRat_eq_mantissaAt (le_max_left a.scale b.scale),
        toRat_eq_mantissaAt (le_max_right a.scale b.scale), ← add_mul, ← Int.cast_add]
      rfl

theorem toRat_sub (a b : Decimal) : (a - b).toRat = a.toRat - b.toRat := by
  have h := toRat_add a b.neg
  rwa [toRat_neg, ← sub_eq_add_neg] at h

theorem toRat_mul (a b : Decimal) : (a * b).toRat = a.toRat * b.toRat := by
  show ((a.mantissa * b.mantissa : Int) : ℚ) * 10 ^ (-(a.scale + b.scale)) = _
  rw [neg_add, zpow_add₀ (by norm_num), Int.cast_mul, toRat, toRat]
  ring

theorem toRat_abs (d : Decimal) : d.abs.toRat = |d.toRat| := by
  unfold abs
  split
  · next h => rw [toRat_neg, abs_of_neg (isNegative_iff.mp h)]
  · next h => rw [abs_of_nonneg (not_lt.mp fun hlt => h (isNegative_iff.mpr hlt))]

/-! ### Zeros at the end of the mantissa -/

/-- The zeros that are taken off the mantissa are taken off the scale. -/
theorem stripZeros_spec (m : Nat) (s : Int) :
    ∃ k : Nat, (stripZeros m s).1 * 10 ^ k = m ∧ (stripZeros m s).2 + k = s := by
  fun_induction stripZeros m s with
  | case1 m s h ih =>
    obtain ⟨k, hm, hs⟩ := ih
    refine ⟨k + 1, ?_, by omega⟩
    rw [pow_succ, ← mul_assoc, hm]
    omega
  | case2 m s h => exact ⟨0, by simp⟩

theorem stripZeros_mod_ne_zero {m : Nat} (hm : m ≠ 0) (s : Int) : (stripZeros m s).1 % 10 ≠ 0 := by
  fun_induction stripZeros m s with
  | case1 m s h ih => exact ih (by omega)
  | case2 m s h => exact fun h₀ => h ⟨hm, h₀⟩

/-! ### Normal forms -/

/-- The mantissa does not end in a zero, and the number zero is written with scale 0. -/
structure IsNormal (d : Decimal) : Prop where
  last_ne_zero : d.mantissa ≠ 0 → d.mantissa.natAbs % 10 ≠ 0
  scale_of_zero : d.mantissa = 0 → d.scale = 0

/-- What `normalize` does to a decimal that is not zero. -/
theorem normalize_of_ne_zero {d : Decimal} (h : d.mantissa ≠ 0) :
    d.normalize = ⟨d.mantissa.sign * (stripZeros d.mantissa.natAbs d.scale).1,
      (stripZeros d.mantissa.natAbs d.scale).2⟩ := by
  simp [normalize, isZero, h]

theorem normalize_of_zero {d : Decimal} (h : d.mantissa = 0) : d.normalize = zero := by
  simp [normalize, isZero, h]

theorem isNormal_normalize (d : Decimal) : d.normalize.IsNormal := by
  by_cases h : d.mantissa = 0
  · rw [normalize_of_zero h]
    exact ⟨fun h₀ => absurd rfl h₀, fun _ => rfl⟩
  · have hlast := stripZeros_mod_ne_zero (Int.natAbs_ne_zero.mpr h) d.scale
    rw [normalize_of_ne_zero h]
    refine ⟨fun _ => ?_, fun h₀ => ?_⟩
    · simpa [Int.natAbs_mul, Int.natAbs_sign_of_ne_zero h] using hlast
    · rw [mul_eq_zero, Int.sign_eq_zero_iff_zero] at h₀
      omega

theorem toRat_normalize (d : Decimal) : d.normalize.toRat = d.toRat := by
  by_cases h : d.mantissa = 0
  · rw [normalize_of_zero h, toRat_zero]
    simp [toRat, h]
  · obtain ⟨k, hm, hs⟩ := stripZeros_spec d.mantissa.natAbs d.scale
    rw [normalize_of_ne_zero h, toRat_eq_iff_of_scale_le (by simp only; omega)]
    -- The digits that were taken off are put back by going up to the scale of `d`.
    have hk : (d.scale - (stripZeros d.mantissa.natAbs d.scale).2).toNat = k := by omega
    calc d.mantissa.sign * ((stripZeros d.mantissa.natAbs d.scale).1 : Int) *
          Int.ofNat (powTen (d.scale - (stripZeros d.mantissa.natAbs d.scale).2).toNat)
        = d.mantissa.sign * (((stripZeros d.mantissa.natAbs d.scale).1 * 10 ^ k : Nat) : Int) := by
          rw [hk]
          push_cast [powTen]
          rw [mul_assoc]
          rfl
      _ = d.mantissa := by rw [hm, Int.sign_mul_natAbs]

/-- The scale of the normal form is at most that of the form it comes from, unless
the number is zero. -/
theorem scale_normalize_le (d : Decimal) : d.normalize.scale ≤ max d.scale 0 := by
  by_cases h : d.mantissa = 0
  · rw [normalize_of_zero h]
    exact le_max_right _ _
  · obtain ⟨k, -, hs⟩ := stripZeros_spec d.mantissa.natAbs d.scale
    rw [normalize_of_ne_zero h]
    simp only
    omega

/-- At a larger scale a number that is not zero ends in a zero. -/
theorem IsNormal.scale_le {a b : Decimal} (hb : b.IsNormal) (h : a.toRat = b.toRat)
    (hle : a.scale ≤ b.scale) (hne : b.mantissa ≠ 0) : b.scale ≤ a.scale := by
  by_contra hlt
  obtain ⟨k, hk⟩ : ∃ k : Nat, (b.scale - a.scale).toNat = k + 1 :=
    Nat.exists_eq_succ_of_ne_zero (by omega)
  have hm := (toRat_eq_iff_of_scale_le hle).mp h
  have hdvd : (10 : Int) ∣ b.mantissa := by
    rw [← hm, mantissaAt, hk]
    exact dvd_mul_of_dvd_right (Int.ofNat_dvd.mpr (dvd_pow_self 10 k.succ_ne_zero)) _
  exact hb.last_ne_zero hne (Nat.mod_eq_zero_of_dvd (Int.natAbs_dvd_natAbs.mpr hdvd))

/-- A number has one normal form. -/
theorem IsNormal.eq_of_toRat_eq {a b : Decimal} (ha : a.IsNormal) (hb : b.IsNormal)
    (h : a.toRat = b.toRat) : a = b := by
  wlog hle : a.scale ≤ b.scale generalizing a b with H
  · exact (H hb ha h.symm (by omega)).symm
  have hm := (toRat_eq_iff_of_scale_le hle).mp h
  have hs : a.scale = b.scale := by
    by_cases hz : b.mantissa = 0
    · have hz' : a.mantissa = 0 := by
        simpa [hz, mantissaAt, powTen] using hm
      rw [ha.scale_of_zero hz', hb.scale_of_zero hz]
    · exact le_antisymm hle (hb.scale_le h hle hz)
  obtain ⟨m, s⟩ := a
  obtain ⟨m', s'⟩ := b
  obtain rfl : s = s' := hs
  simpa [mantissaAt, powTen] using hm

theorem normalize_eq_normalize_iff {a b : Decimal} : a.normalize = b.normalize ↔ a.toRat = b.toRat := by
  constructor
  · intro h
    rw [← toRat_normalize a, h, toRat_normalize]
  · intro h
    apply (isNormal_normalize a).eq_of_toRat_eq (isNormal_normalize b)
    rw [toRat_normalize, toRat_normalize, h]

/-! ### Integers -/

@[simp] theorem toRat_ofInt (n : Int) : (ofInt n).toRat = n := by simp [toRat, ofInt]

/-- Written without fractional digits, a number is its mantissa. -/
theorem toRat_eq_mantissaAt_zero {d : Decimal} (h : d.scale ≤ 0) : d.toRat = d.mantissaAt 0 := by
  rw [toRat_eq_mantissaAt h]
  simp

/-- A normal form of an integer has no fractional digits. -/
theorem IsNormal.scale_nonpos {d : Decimal} (hd : d.IsNormal) {n : Int} (h : d.toRat = n) :
    d.scale ≤ 0 := by
  by_contra hlt
  have hne : d.mantissa ≠ 0 := fun hz => hlt (hd.scale_of_zero hz).le
  have hle : (ofInt n).scale ≤ d.scale := (not_le.mp hlt).le
  exact hlt (hd.scale_le ((toRat_ofInt n).trans h.symm) hle hne)

theorem isInteger_iff {d : Decimal} : d.isInteger = true ↔ ∃ n : Int, d.toRat = n := by
  rw [isInteger, decide_eq_true_iff, ← toRat_normalize d]
  constructor
  · exact fun h => ⟨_, toRat_eq_mantissaAt_zero h⟩
  · rintro ⟨n, hn⟩
    exact (isNormal_normalize d).scale_nonpos hn

/-- A number with so many zeros at its end is beyond 64 bits. -/
theorem IsNormal.not_fitsInt64 {d : Decimal} (hd : d.IsNormal) (hs : d.scale < -18) :
    fitsInt64 (d.mantissaAt 0) = false := by
  have hne : d.mantissa ≠ 0 := by
    intro hz
    have := hd.scale_of_zero hz
    omega
  have hpow : 10 ^ 19 ≤ powTen (0 - d.scale).toNat := Nat.pow_le_pow_right (by decide) (by omega)
  have hsize : 10 ^ 19 ≤ (d.mantissaAt 0).natAbs := by
    rw [mantissaAt, Int.natAbs_mul]
    exact hpow.trans (Nat.le_mul_of_pos_left _ (Int.natAbs_pos.mpr hne))
  rw [fitsInt64, decide_eq_false_iff_not]
  omega

/-- The conversion to a 64-bit integer depends on the number alone. -/
theorem toInt64?_eq_some_iff {d : Decimal} {n : Int} :
    d.toInt64? = some n ↔ d.toRat = n ∧ fitsInt64 n = true := by
  have hd := isNormal_normalize d
  rw [← toRat_normalize d, toInt64?]
  generalize d.normalize = e at hd
  constructor
  · intro h
    split at h
    · cases h
    · next hscale =>
      obtain ⟨hfits, ⟨⟩⟩ := Option.ite_none_right_eq_some.mp h
      exact ⟨toRat_eq_mantissaAt_zero (by omega), hfits⟩
  · rintro ⟨hn, hfits⟩
    have hle := hd.scale_nonpos hn
    obtain rfl : e.mantissaAt 0 = n := by
      rw [toRat_eq_mantissaAt_zero hle] at hn
      exact_mod_cast hn
    have hge : ¬ e.scale < -18 := by
      intro hlt
      rw [hd.not_fitsInt64 hlt] at hfits
      cases hfits
    rw [if_neg (by omega), if_pos hfits]

/-- The bounds of a signed 64-bit word. -/
theorem fitsInt64_iff {n : Int} : fitsInt64 n = true ↔ -2 ^ 63 ≤ n ∧ n < 2 ^ 63 := by
  rw [fitsInt64, decide_eq_true_iff]
  omega

theorem toUInt32?_eq_some_iff {d : Decimal} {n : Nat} :
    d.toUInt32? = some n ↔ d.toRat = n ∧ n < 2 ^ 32 := by
  unfold toUInt32?
  constructor
  · intro h
    split at h
    · next v hv =>
      obtain ⟨hrange, hn⟩ := Option.ite_none_right_eq_some.mp h
      obtain rfl := Option.some.inj hn
      refine ⟨?_, by omega⟩
      rw [(toInt64?_eq_some_iff.mp hv).1, ← Int.cast_natCast, Int.toNat_of_nonneg hrange.1]
    · cases h
  · rintro ⟨hd, hn⟩
    have hv : d.toInt64? = some (n : Int) :=
      toInt64?_eq_some_iff.mpr ⟨by exact_mod_cast hd, fitsInt64_iff.mpr (by omega)⟩
    simp only [hv]
    rw [if_pos (by omega), Int.toNat_natCast]

/-! ### Truncation -/

/-- The integer part of a number: what is behind the point is cut off. -/
def truncate (x : ℚ) : Int := if 0 ≤ x then ⌊x⌋ else ⌈x⌉

theorem truncate_of_nonneg {x : ℚ} (h : 0 ≤ x) : truncate x = ⌊x⌋ := if_pos h

@[simp] theorem truncate_intCast (n : Int) : truncate n = n := by
  simp [truncate]

/-- Only one integer is less than one away and not further from zero. -/
theorem truncate_eq {x : ℚ} {t : ℤ} (hdist : |x - t| < 1) (habs : |(t : ℚ)| ≤ |x|) :
    truncate x = t := by
  obtain ⟨hlow, hhigh⟩ := abs_lt.mp hdist
  unfold truncate
  split
  · next hx =>
    rw [abs_of_nonneg hx] at habs
    have hle := (abs_le.mp habs).2
    exact Int.floor_eq_iff.mpr ⟨hle, by linarith⟩
  · next hx =>
    rw [abs_of_neg (not_le.mp hx)] at habs
    have hge := (abs_le.mp habs).1
    exact Int.ceil_eq_iff.mpr ⟨by linarith, by linarith⟩

theorem truncate_eq_zero_of_abs_lt_one {x : ℚ} (h : |x| < 1) : truncate x = 0 :=
  truncate_eq (by simpa using h) (by simp)

theorem abs_tmod_lt (n : ℤ) {d : ℤ} (hd : d ≠ 0) : |n.tmod d| < |d| := by
  rw [Int.abs_eq_natAbs, Int.abs_eq_natAbs, Int.natAbs_tmod]
  exact_mod_cast Nat.mod_lt _ (Int.natAbs_pos.mpr hd)

/-- The quotient of integers that truncates is the exact one, cut off. -/
theorem truncate_div (n : ℤ) {d : ℤ} (hd : d ≠ 0) : truncate ((n : ℚ) / d) = n.tdiv d := by
  have hpos : (0 : ℚ) < |(d : ℚ)| := abs_pos.mpr (by exact_mod_cast hd)
  have hd' : (d : ℚ) ≠ 0 := by exact_mod_cast hd
  have hrem : |n - n.tdiv d * d| < |d| := by
    rw [mul_comm, ← Int.tmod_def]
    exact abs_tmod_lt n hd
  have hquot : |n.tdiv d * d| ≤ |n| := by
    rw [Int.abs_eq_natAbs, Int.abs_eq_natAbs, Int.natAbs_mul, Int.natAbs_tdiv]
    exact_mod_cast Nat.div_mul_le_self _ _
  apply truncate_eq
  · have hscaled : |(n : ℚ) / d - n.tdiv d| * |(d : ℚ)| < 1 * |(d : ℚ)| := by
      rw [← abs_mul, sub_mul, div_mul_cancel₀ _ hd', one_mul]
      exact_mod_cast hrem
    exact lt_of_mul_lt_mul_right hscaled hpos.le
  · have hscaled : |(n.tdiv d : ℚ)| * |(d : ℚ)| ≤ |(n : ℚ) / d| * |(d : ℚ)| := by
      rw [← abs_mul, ← abs_mul, div_mul_cancel₀ _ hd']
      exact_mod_cast hquot
    exact le_of_mul_le_mul_right hscaled hpos

/-- Division of the mantissa cuts off the digits after the point. -/
theorem tdiv_powTen_eq_truncate {d : Decimal} (hscale : 0 ≤ d.scale) :
    d.mantissa.tdiv (Int.ofNat (powTen d.scale.toNat)) = truncate d.toRat := by
  have hpow : Int.ofNat (powTen d.scale.toNat) ≠ 0 := by simp [powTen]
  rw [← truncate_div _ hpow, toRat, zpow_neg, div_eq_mul_inv]
  congr 3
  obtain ⟨k, hk⟩ : ∃ k : Nat, d.scale = k := Int.eq_ofNat_of_zero_le hscale
  simp [hk, powTen]

/-- The conversion that cuts off the digits after the point depends on the number, and on whether
the digits are too many. -/
theorem truncToInt64?_eq_some_iff {d : Decimal} {n : Int} :
    d.truncToInt64? = some n ↔ d.scale ≤ maxExponent ∧ n = truncate d.toRat ∧ fitsInt64 n = true := by
  unfold truncToInt64?
  split
  · next hle =>
    have hscale : d.scale ≤ maxExponent := hle.trans (by decide)
    rw [toInt64?_eq_some_iff, toRat_eq_mantissaAt_zero hle, truncate_intCast, Int.cast_inj]
    simp only [hscale, true_and, eq_comm]
  · next hlt =>
    split
    · next hdigits => simp [hdigits.not_ge]
    · next hdigits =>
      simp only [tdiv_powTen_eq_truncate (not_le.mp hlt).le, not_lt.mp hdigits, true_and,
        Option.ite_none_right_eq_some, Option.some.injEq]
      constructor
      · rintro ⟨hfits, rfl⟩
        exact ⟨rfl, hfits⟩
      · rintro ⟨rfl, hfits⟩
        exact ⟨hfits, rfl⟩

theorem floor_toRat_of_truncToInt64? {d : Decimal} {n : Int} (hd : 0 ≤ d.toRat)
    (h : d.truncToInt64? = some n) : n = ⌊d.toRat⌋ := by
  rw [(truncToInt64?_eq_some_iff.mp h).2.1, truncate_of_nonneg hd]

/-- What is left fits in 64 bits, so it is found. -/
theorem truncToInt64?_of_fits {d : Decimal} (hd : 0 ≤ d.toRat) (hscale : d.scale ≤ maxExponent)
    (hfits : fitsInt64 ⌊d.toRat⌋ = true) : d.truncToInt64? = some ⌊d.toRat⌋ :=
  truncToInt64?_eq_some_iff.mpr ⟨hscale, (truncate_of_nonneg hd).symm, hfits⟩

end LazyExpr.Decimal
