/-
LazyExpr/Proofs/Decimal/Logarithm.lean

The fixed-point logarithm of a positive decimal.

A decimal is `μ * 10 ^ position` with `0.1 ≤ μ < 1`, and up to four doublings bring `μ`
between one and two.  There the logarithm is twice the area tangent of a number of at most
one third (`log_one_two_approx`).  The doublings are taken off again as multiples of the
fixed-point number for `log 2` (`log_doubled_approx`), and the power of ten is put back as a
multiple of the one for `log 10`.  So the error is a constant, for the series and the
doublings, and a multiple of the position of the leading digit (`ln_approx`).

The number itself is cut twice on the way, when it is brought to 70 digits and when the
argument of the series is formed.  What this does to the logarithm is bounded by its slope
(`abs_log_sub_log_le`).
-/
import LazyExpr.Proofs.Decimal.Order
import LazyExpr.Proofs.Decimal.Series
import Mathlib.Analysis.SpecialFunctions.Log.Deriv

namespace LazyExpr.Decimal

/-! ### Digits -/

/-- The digits of the mantissa behind the point. -/
noncomputable def fraction (d : Decimal) : ℝ := d.mantissa / 10 ^ digitCount d.mantissa.natAbs

theorem toRat_eq_fraction_mul (d : Decimal) : (d.toRat : ℝ) = d.fraction * 10 ^ d.position := by
  have hten : (10 : ℝ) ≠ 0 := by norm_num
  rw [toRat, fraction, position, zpow_sub₀ hten, zpow_natCast]
  push_cast
  rw [zpow_neg]
  field_simp

theorem fraction_bounds {d : Decimal} (hd : 0 < d.mantissa) : 1 / 10 ≤ d.fraction ∧ d.fraction < 1 := by
  obtain ⟨m, hm⟩ := Int.eq_ofNat_of_zero_le hd.le
  have hpos : 0 < m := by omega
  have hlow := ten_pow_le_of_digitCount hpos
  have hhigh := lt_ten_pow_digitCount m
  obtain ⟨k, hk⟩ : ∃ k, digitCount m = k + 1 :=
    Nat.exists_eq_succ_of_ne_zero (Nat.length_toDigits_pos (b := 10) (n := m)).ne'
  rw [fraction, hm, Int.natAbs_natCast]
  rw [hk, Nat.add_sub_cancel] at hlow
  rw [hk] at hhigh ⊢
  constructor
  · rw [le_div_iff₀ (by positivity)]
    have hcast : (10 ^ k : ℝ) ≤ m := by exact_mod_cast hlow
    push_cast
    rw [pow_succ]
    linarith
  · rw [div_lt_one (by positivity)]
    exact_mod_cast hhigh

namespace FixedPoint

/-! ### The area tangent -/

theorem hasSum_area_tangent {x : ℝ} (hx : |x| < 1) :
    HasSum (fun i : ℕ => x ^ (2 * i + 1) / (2 * i + 1)) ((Real.log (1 + x) - Real.log (1 - x)) / 2) := by
  have hsum := (Real.hasSum_log_sub_log_of_abs_lt_one hx).div_const 2
  convert! hsum using 2 with i
  ring

theorem isOddStep_atanhInverse (n : ℕ) :
    IsOddStep (atanhInverseStep n) fun x => 1 * x.tdiv (n * n) := by
  apply IsOddStep.of_test (P := fun s => s.power = 0)
  · intro s
    rw [one_mul]
    rfl
  · intro s hzero
    rw [hzero, Int.zero_tdiv]

theorem atanhInverse_approx {n : ℕ} (hn : 2 ≤ n) :
    Approx (atanhInverse n) ((Real.log (1 + (n : ℝ)⁻¹) - Real.log (1 - (n : ℝ)⁻¹)) / 2) 3090 := by
  have hinv : |(n : ℝ)⁻¹| < 1 := by
    have hn' : (1 : ℝ) < n := by exact_mod_cast hn
    rw [abs_of_nonneg (by positivity)]
    exact inv_lt_one_of_one_lt₀ hn'
  apply (isOddStep_atanhInverse n).inverse_approx hn rfl
  simpa using hasSum_area_tangent hinv

theorem isOddStep_atanh (zz : ℤ) : IsOddStep (atanhStep zz) fun x => mul x zz :=
  .of_test (P := fun s => s.power.tdiv s.k = 0) (fun _ => rfl) fun hzero => hzero

theorem atanh_approx {z : ℤ} (hz : |(z / unit : ℝ)| ≤ 1 / 3) :
    Approx (atanh z) ((Real.log (1 + z / unit) - Real.log (1 - z / unit)) / 2) 3090 := by
  have hself := approx_self z
  have hle := abs_div_unit_le_iff.mp hz
  have hsum := hasSum_area_tangent (hz.trans_lt (by norm_num))
  generalize (z / unit : ℝ) = ζ at *
  have hsq : ζ ^ 2 ≤ 1 / 9 := by
    rw [← sq_abs]
    nlinarith [abs_nonneg ζ]
  have hzz : Approx (mul z z) (ζ ^ 2) 1 := by
    have hmul := hself.mul hself hz hle
    rw [← sq] at hmul
    exact hmul.mono (by norm_num)
  have hzz_le : |(mul z z : ℝ)| ≤ unit * (1 / 8) := by
    have hbig := unit_ge
    have habs := hzz.abs_le
    rw [abs_of_nonneg (sq_nonneg ζ)] at habs
    nlinarith
  have hpower : ∀ i : ℕ, |ζ ^ (2 * i + 1)| ≤ 1 / 3 := by
    intro i
    rw [pow_succ, pow_mul, abs_mul, abs_of_nonneg (by positivity)]
    calc (ζ ^ 2) ^ i * |ζ| ≤ 1 * (1 / 3) := by
          refine mul_le_mul (pow_le_one₀ (sq_nonneg ζ) (by linarith)) hz (abs_nonneg ζ) zero_le_one
      _ = 1 / 3 := one_mul _
  refine (isOddStep_atanh (mul z z)).sum_approx (p := fun i => ζ ^ (2 * i + 1)) ?_ ?_ ?_ ?_ hsum
  · intro i
    have hnext : ζ ^ (2 * (i + 1) + 1) = ζ ^ 2 * ζ ^ (2 * i + 1) := by ring
    rw [hnext, abs_mul, abs_of_nonneg (sq_nonneg ζ)]
    exact mul_le_mul_of_nonneg_right (by linarith) (abs_nonneg _)
  · exact (hpower 0).trans (by norm_num)
  · intro i x hx
    have hmul := hx.mul hzz (hpower i) hzz_le
    rw [show ζ ^ (2 * i + 1) * ζ ^ 2 = ζ ^ (2 * (i + 1) + 1) by ring] at hmul
    exact hmul.mono (by norm_num)
  · simpa using hself.mono zero_le_two

/-! ### Constants -/

theorem ln2_approx : Approx ln2 (Real.log 2) 6180 := by
  have hlog : Real.log 2 =
      (2 : ℤ) * ((Real.log (1 + ((3 : ℕ) : ℝ)⁻¹) - Real.log (1 - ((3 : ℕ) : ℝ)⁻¹)) / 2) := by
    rw [← Real.log_div (by norm_num) (by norm_num)]
    norm_num
    ring
  rw [hlog]
  exact ((atanhInverse_approx (n := 3) (by norm_num)).intMul 2).mono (by norm_num)

theorem ln10_approx : Approx ln10 (Real.log 10) 24720 := by
  have hlog : Real.log 10 = (3 : ℤ) * Real.log 2 +
      (2 : ℤ) * ((Real.log (1 + ((9 : ℕ) : ℝ)⁻¹) - Real.log (1 - ((9 : ℕ) : ℝ)⁻¹)) / 2) := by
    have hten : (10 : ℝ) = 2 ^ 3 * (5 / 4) := by norm_num
    rw [← Real.log_div (by norm_num) (by norm_num), hten, Real.log_mul (by norm_num) (by norm_num),
      Real.log_pow]
    norm_num
    ring
  rw [hlog]
  exact ((ln2_approx.intMul 3).add
    ((atanhInverse_approx (n := 9) (by norm_num)).intMul 2)).mono (by norm_num)

/-! ### Between one and two -/

/-- The slope of the logarithm is at most `1 / m` from `m` on. -/
theorem abs_log_sub_log_le {a b m : ℝ} (hm : 0 < m) (ha : m ≤ a) (hb : m ≤ b) :
    |Real.log a - Real.log b| ≤ |a - b| / m := by
  have hslope : ∀ {a b : ℝ}, m ≤ a → m ≤ b → Real.log a - Real.log b ≤ |a - b| / m := by
    intro a b ha hb
    have hb₀ : 0 < b := hm.trans_le hb
    have ha₀ : 0 < a := hm.trans_le ha
    calc Real.log a - Real.log b = Real.log (a / b) := (Real.log_div ha₀.ne' hb₀.ne').symm
      _ ≤ a / b - 1 := Real.log_le_sub_one_of_pos (div_pos ha₀ hb₀)
      _ = (a - b) / b := by field_simp
      _ ≤ |a - b| / b := div_le_div_of_nonneg_right (le_abs_self _) hb₀.le
      _ ≤ |a - b| / m := div_le_div_of_nonneg_left (abs_nonneg _) hm hb
  rw [abs_le]
  refine ⟨?_, hslope ha hb⟩
  have h := hslope hb ha
  rw [abs_sub_comm] at h
  linarith

/-- The argument of the series is off by one unit, and the series doubles that and a
little more. -/
theorem log_one_two_approx {y : ℤ} (hlow : unit ≤ y) (hhigh : y < 2 * unit) :
    Approx (2 * atanh (div (y - unit) (y + unit))) (Real.log (y / unit)) 6190 := by
  have hu := unit_pos
  have hlow' : (unit : ℝ) ≤ y := by exact_mod_cast hlow
  have hhigh' : (y : ℝ) < 2 * unit := by exact_mod_cast hhigh
  -- the argument `ζ₀` of the series, and `ζ` where it is cut off
  obtain ⟨ζ₀, hζ₀⟩ : ∃ ζ₀ : ℝ, ζ₀ = (y - unit) / (y + unit) := ⟨_, rfl⟩
  have hζ₀_le : ζ₀ ≤ 1 / 3 := by
    rw [hζ₀, div_le_iff₀ (by linarith)]
    linarith
  generalize hz : div (y - unit) (y + unit) = z
  have hu' : 0 < unit := by exact_mod_cast hu
  have hnum : 0 ≤ (y - unit) * unit := mul_nonneg (by omega) hu'.le
  have hvalue : (((y - unit) * unit : ℤ) : ℝ) / ((y + unit : ℤ) : ℝ) = unit * ζ₀ := by
    rw [hζ₀]
    push_cast
    ring
  have hz_nonneg : (0 : ℝ) ≤ z / unit := by
    have hint : 0 ≤ z := hz ▸ Int.tdiv_nonneg hnum (by omega)
    exact div_nonneg (by exact_mod_cast hint) hu.le
  have hz_le : (z / unit : ℝ) ≤ ζ₀ := by
    rw [div_le_iff₀' hu, ← hvalue, ← hz]
    exact tdiv_le_div hnum (by omega)
  have hcut : unit * |(z / unit : ℝ) - ζ₀| ≤ 1 := by
    have h := abs_tdiv_sub_le ((y - unit) * unit) (show y + unit ≠ 0 by omega)
    rw [hvalue, show ((y - unit) * unit).tdiv (y + unit) = z from hz] at h
    rwa [← abs_of_pos hu, ← abs_mul, abs_of_pos hu, mul_sub, mul_div_cancel₀ _ hu.ne']
  have hseries := (atanh_approx (z := z) (by rw [abs_of_nonneg hz_nonneg]; linarith)).intMul 2
  generalize (z / unit : ℝ) = ζ at *
  have hlog : Real.log (y / unit) = Real.log (1 + ζ₀) - Real.log (1 - ζ₀) := by
    have hsum : (y : ℝ) + unit ≠ 0 := by linarith
    have hnumerator : 1 + ζ₀ = 2 * y / (y + unit) := by
      rw [hζ₀]
      field_simp
      ring
    have hdenominator : 1 - ζ₀ = 2 * unit / (y + unit) := by
      rw [hζ₀]
      field_simp
      ring
    rw [← Real.log_div (by linarith) (by linarith), hnumerator, hdenominator]
    congr 1
    field_simp
  have hplus := abs_log_sub_log_le one_pos (show 1 ≤ 1 + ζ by linarith) (show 1 ≤ 1 + ζ₀ by linarith)
  have hminus := abs_log_sub_log_le (show (0 : ℝ) < 1 / 2 by norm_num)
    (show 1 / 2 ≤ 1 - ζ by linarith) (show 1 / 2 ≤ 1 - ζ₀ by linarith)
  rw [add_sub_add_left_eq_sub, div_one] at hplus
  rw [sub_sub_sub_cancel_left, abs_sub_comm ζ₀ ζ] at hminus
  refine (hseries.trans (δ := 3) ?_).mono (by norm_num)
  calc (unit : ℝ) * |((2 : ℤ) : ℝ) * ((Real.log (1 + ζ) - Real.log (1 - ζ)) / 2) - Real.log (y / unit)|
      = unit * |(Real.log (1 + ζ) - Real.log (1 + ζ₀)) - (Real.log (1 - ζ) - Real.log (1 - ζ₀))| := by
        rw [hlog]
        push_cast
        ring_nf
    _ ≤ unit * (|ζ - ζ₀| + |ζ - ζ₀| / (1 / 2)) := by
        refine mul_le_mul_of_nonneg_left ?_ hu.le
        exact (abs_sub _ _).trans (add_le_add hplus hminus)
    _ = 3 * (unit * |ζ - ζ₀|) := by ring
    _ ≤ 3 := by linarith

/-! ### Doublings -/

theorem doubleUp_spec {limit : ℕ} {y : ℤ} (hlow : unit ≤ 2 ^ limit * y) (hhigh : y < 2 * unit) :
    (doubleUp limit y).1 = 2 ^ (doubleUp limit y).2 * y ∧ unit ≤ (doubleUp limit y).1 ∧
      (doubleUp limit y).1 < 2 * unit ∧ (doubleUp limit y).2 ≤ limit := by
  induction limit generalizing y with
  | zero =>
    rw [doubleUp]
    exact ⟨by simp, by simpa using hlow, hhigh, le_rfl⟩
  | succ limit ih =>
    rw [doubleUp]
    split
    · next hlt =>
      obtain ⟨hvalue, hge, hle, hcount⟩ := ih (y := 2 * y) (by rw [← mul_assoc, ← pow_succ]; exact hlow)
        (by omega)
      refine ⟨?_, hge, hle, Nat.succ_le_succ hcount⟩
      rw [hvalue, pow_succ]
      ring
    · next hge => exact ⟨by simp, not_lt.mp hge, hhigh, Nat.zero_le _⟩

/-- A fraction of at least one tenth is doubled four times at most, the cut off digits
notwithstanding. -/
theorem doubling_bounds {y : ℤ} {μ : ℝ} (hlow : 1 / 10 ≤ μ) (hhigh : μ < 1) (hnear : Approx y μ 1)
    (hle : (y : ℝ) ≤ unit * μ) : unit ≤ 2 ^ 4 * y ∧ y < 2 * unit := by
  have hu := unit_pos
  constructor
  · have hreal : (unit : ℝ) ≤ 2 ^ 4 * y := by nlinarith [unit_ge, (abs_le.mp hnear).1]
    exact_mod_cast hreal
  · have hreal : (y : ℝ) < 2 * unit := by nlinarith
    exact_mod_cast hreal

/-! ### The logarithm -/

/-- The number that is doubled holds the first 70 digits; the others are cut off. -/
theorem ln_eq (d : Decimal) :
    ln d = (tenShift d.mantissa (70 - digitCount d.mantissa.natAbs) "logarithm").map fun y =>
      2 * atanh (div ((doubleUp 4 y).1 - unit) ((doubleUp 4 y).1 + unit)) -
        ln2 * (doubleUp 4 y).2 + ln10 * d.position := by
  simp only [ln, tenShift, show (workingScale : ℤ) = 70 from rfl]
  split
  · rcases tenPow (70 - digitCount d.mantissa.natAbs) "logarithm" with err | p <;> rfl
  · rcases tenPow (-(70 - digitCount d.mantissa.natAbs)) "logarithm" with err | p <;> rfl

theorem ln_of_lt {d : Decimal} (h : maxExponent + 70 < digitCount d.mantissa.natAbs) :
    ln d = .error (.overflow "logarithm") := by
  rw [ln_eq, tenShift_of_lt]
  · rfl
  · rw [lt_abs]
    omega

theorem ln_cases (d : Decimal) :
    (∃ x, ln d = .ok x) ∨ ln d = .error (.overflow "logarithm") := by
  rw [ln_eq]
  rcases le_or_gt |70 - (digitCount d.mantissa.natAbs : ℤ)| maxExponent with h | h
  · obtain ⟨y, hy, -⟩ := tenShift_approx d.mantissa "logarithm" h
    exact .inl ⟨_, by rw [hy]; rfl⟩
  · exact .inr (by rw [tenShift_of_lt _ _ h]; rfl)

/-- Doubling a number and taking the doublings off its logarithm again costs a constant. -/
theorem log_doubled_approx {y : ℤ} {μ : ℝ} (hlow : 1 / 10 ≤ μ) (hhigh : μ < 1)
    (hnear : Approx y μ 1) (hle : (y : ℝ) ≤ unit * μ) :
    Approx (2 * atanh (div ((doubleUp 4 y).1 - unit) ((doubleUp 4 y).1 + unit)) -
      ln2 * (doubleUp 4 y).2) (Real.log μ) 31000 := by
  have hu := unit_pos
  obtain ⟨hylow, hyhigh⟩ := doubling_bounds hlow hhigh hnear hle
  obtain ⟨hdouble, hge, hlt, hcount⟩ := doubleUp_spec hylow hyhigh
  generalize (doubleUp 4 y).1 = z at *
  generalize (doubleUp 4 y).2 = n at *
  -- the doubled number and the doubled fraction are both at least one
  have hz : (z : ℝ) = 2 ^ n * y := by exact_mod_cast hdouble
  have hz_ge : 1 ≤ (z / unit : ℝ) := by
    rw [le_div_iff₀ hu, one_mul]
    exact_mod_cast hge
  have hz_le : (z / unit : ℝ) ≤ 2 ^ n * μ := by
    rw [div_le_iff₀ hu, hz]
    nlinarith [pow_pos (two_pos : (0 : ℝ) < 2) n]
  have hpow : (2 : ℝ) ^ n ≤ 16 := by
    calc (2 : ℝ) ^ n ≤ 2 ^ 4 := pow_le_pow_right₀ one_le_two hcount
      _ = 16 := by norm_num
  have hslope := abs_log_sub_log_le one_pos hz_ge (hz_ge.trans hz_le)
  rw [div_one] at hslope
  have hscaled : (unit : ℝ) * (z / unit - 2 ^ n * μ) = 2 ^ n * (y - unit * μ) := by
    rw [mul_sub, mul_div_cancel₀ _ hu.ne', hz]
    ring
  have hfraction : Approx (2 * atanh (div (z - unit) (z + unit))) (Real.log (2 ^ n * μ))
      (6190 + 16) := by
    refine (log_one_two_approx hge hlt).trans ?_
    calc (unit : ℝ) * |Real.log (z / unit) - Real.log (2 ^ n * μ)|
        ≤ unit * |(z / unit : ℝ) - 2 ^ n * μ| := mul_le_mul_of_nonneg_left hslope hu.le
      _ = |2 ^ n * ((y : ℝ) - unit * μ)| := by
          rw [← hscaled, abs_mul, abs_of_pos hu]
      _ = 2 ^ n * |(y : ℝ) - unit * μ| := by
          rw [abs_mul, abs_of_pos (by positivity)]
      _ ≤ 16 * 1 := mul_le_mul hpow hnear (abs_nonneg _) (by norm_num)
      _ = 16 := by norm_num
  have hlog : Real.log μ = Real.log (2 ^ n * μ) - (n : ℤ) * Real.log 2 := by
    rw [Real.log_mul (by positivity) (by linarith), Real.log_pow]
    push_cast
    ring
  have hcast : |((n : ℤ) : ℝ)| ≤ 4 := by
    rw [Int.cast_natCast, Nat.abs_cast]
    exact_mod_cast hcount
  rw [hlog, mul_comm ln2]
  exact (hfraction.sub (ln2_approx.intMul n)).mono (by linarith)

/-- The first 70 digits of a mantissa that has not too many of them. -/
theorem leading_approx {d : Decimal} (hd : 0 < d.mantissa)
    (hdigits : digitCount d.mantissa.natAbs ≤ maxExponent + 70) :
    ∃ y, tenShift d.mantissa (70 - digitCount d.mantissa.natAbs) "logarithm" = .ok y ∧
      Approx y d.fraction 1 ∧ (y : ℝ) ≤ unit * d.fraction := by
  have hvalue : (unit : ℝ) * d.fraction = d.mantissa * 10 ^ (70 - (digitCount d.mantissa.natAbs : ℤ)) := by
    have hseventy : (10 : ℝ) ^ (70 : ℤ) = 10 ^ 70 := by norm_num
    rw [unit_eq, fraction, zpow_sub₀ (by norm_num), zpow_natCast, hseventy]
    exact mul_div_left_comm _ _ _
  have hshift : |70 - (digitCount d.mantissa.natAbs : ℤ)| ≤ maxExponent := by
    rw [abs_le]
    rw [maxExponent] at *
    omega
  obtain ⟨y, hy, hnear, hle⟩ := tenShift_approx d.mantissa "logarithm" hshift
  rw [← hvalue] at hnear hle
  exact ⟨y, hy, hnear, hle hd.le⟩

/-- The logarithm of a positive number is found unless its mantissa has too many digits,
and its error grows with the distance of the leading digit from the point. -/
theorem ln_approx {d : Decimal} (hd : 0 < d.mantissa)
    (hdigits : digitCount d.mantissa.natAbs ≤ maxExponent + 70) :
    ∃ x, ln d = .ok x ∧ Approx x (Real.log d.toRat) (31000 + 24720 * |(d.position : ℝ)|) := by
  obtain ⟨y, hy, hnear, hle⟩ := leading_approx hd hdigits
  obtain ⟨hlow, hhigh⟩ := fraction_bounds hd
  have hfraction := log_doubled_approx hlow hhigh hnear hle
  have hlog : Real.log d.toRat = Real.log d.fraction + d.position * Real.log 10 := by
    rw [toRat_eq_fraction_mul, Real.log_mul (by linarith) (by positivity), Real.log_zpow]
  refine ⟨_, by rw [ln_eq, hy]; rfl, ?_⟩
  show Approx (_ + ln10 * d.position) _ _
  rw [hlog, mul_comm ln10]
  exact (hfraction.add (ln10_approx.intMul d.position)).mono (by linarith)

end FixedPoint

end LazyExpr.Decimal
