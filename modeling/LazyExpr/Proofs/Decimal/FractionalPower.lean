/-
LazyExpr/Proofs/Decimal/FractionalPower.lean

The fixed-point exponential, and powers with an exponent that is no integer.

The exponential takes `h` times `ln 2` out of its argument, sums the series of what is left
and shifts the sum by `h` bits.  The sum is right up to a constant, so the shifted sum is
right up to a multiple of `2 ^ h` (`exp_eq_shift`).  The argument is not exact either, and
each `ln 2` that is taken out adds to its error.  An error in the argument becomes a relative
error of the exponential, so both together are a multiple of the exponential itself
(`exp_approx`).

The argument is the exponent times the logarithm of the base, and the logarithm of a base
between `10 ^ (-100)` and `10 ^ 100` is known up to a few million units.  For a power of at
most `10 ^ 10` and an exponent of at most 100 this leaves less than half a unit of the last
place of the result (`powMagnitude_dist`).
-/
import LazyExpr.Proofs.Decimal.Power
import Mathlib.Analysis.Complex.ExponentialBounds
import Mathlib.Analysis.SpecialFunctions.Pow.Real

namespace LazyExpr.Decimal

namespace FixedPoint

/-! ### The series -/

theorem ln2_bounds : unit * 0.69 ≤ (ln2 : ℝ) ∧ (ln2 : ℝ) ≤ unit * 0.7 := by
  have hbig := unit_ge
  obtain ⟨hlow, hhigh⟩ := abs_le.mp ln2_approx
  constructor
  · nlinarith [Real.log_two_gt_d9]
  · nlinarith [Real.log_two_lt_d9]

theorem expStep_eq (r : ℤ) : expStep r = ratioStep r fun k => k := rfl

theorem exp_series {ρ : ℝ} (hρ : |ρ| ≤ 0.7) :
    RatioSeries ρ 0.7 (fun k => k) fun n => ρ ^ n / n.factorial where
  divisor_pos n := by positivity
  next n := by
    rw [Nat.factorial_succ, pow_succ]
    push_cast
    field_simp
  factor_le := hρ
  divisor_ge n := by
    have hn : (0 : ℝ) ≤ n := n.cast_nonneg
    push_cast
    linarith
  zeroth_le := by norm_num
  first_le := by
    simp only [pow_one, Nat.factorial_one, Nat.cast_one, div_one]
    linarith

theorem expSum_approx {r : ℤ} (hlow : 0 ≤ r) (hhigh : r < ln2) :
    Approx (unit + sumTerms (expStep r) termLimit ⟨unit, 1⟩) (Real.exp (r / unit)) 50000 := by
  have hr : |(r : ℝ)| ≤ unit * 0.7 := by
    rw [abs_of_nonneg (by exact_mod_cast hlow)]
    exact le_trans (by exact_mod_cast hhigh.le) ln2_bounds.2
  have hρ := abs_div_unit_le_iff.mpr hr
  have hfirst : Approx unit ((r / unit : ℝ) ^ 0 / (0 : ℕ).factorial) 0 := by
    simpa [unit_pos.ne'] using approx_self unit
  have hsum : HasSum (fun n : ℕ => (r / unit : ℝ) ^ n / n.factorial) (Real.exp (r / unit)) := by
    rw [Real.exp_eq_exp_ℝ]
    exact NormedSpace.expSeries_div_hasSum_exp _
  rw [expStep_eq]
  exact (exp_series hρ).sum_approx ((approx_self r).mono zero_le_one) hr hfirst hsum

/-! ### Halvings -/

theorem remainder_bounds (t : ℤ) : 0 ≤ t - t.fdiv ln2 * ln2 ∧ t - t.fdiv ln2 * ln2 < ln2 := by
  have hpos : 0 < ln2 := by
    have hreal : (0 : ℝ) < ln2 := lt_of_lt_of_le (mul_pos unit_pos (by norm_num)) ln2_bounds.1
    exact_mod_cast hreal
  have hdiv := Int.mul_fdiv_add_fmod t ln2
  have hlow := Int.fmod_nonneg_of_pos t hpos
  have hhigh := Int.fmod_lt_of_pos t hpos
  rw [mul_comm] at hdiv
  constructor <;> linarith

theorem abs_fdiv_ln2_le {t : ℤ} (ht : |(t : ℝ)| ≤ unit * 30001) : |t.fdiv ln2| ≤ 50000 := by
  obtain ⟨hlow, hhigh⟩ := remainder_bounds t
  have hln := ln2_bounds
  have hu := unit_pos
  have hlow' : (0 : ℝ) ≤ t - t.fdiv ln2 * ln2 := by exact_mod_cast hlow
  have hhigh' : (t : ℝ) - t.fdiv ln2 * ln2 < ln2 := by exact_mod_cast hhigh
  obtain ⟨hneg, hpos⟩ := abs_le.mp ht
  rw [abs_le]
  constructor
  · by_contra hlt
    have hle : (t.fdiv ln2 : ℝ) ≤ -50001 := by
      have hint : t.fdiv ln2 ≤ -50001 := by omega
      exact_mod_cast hint
    nlinarith
  · by_contra hlt
    have hge : (50001 : ℝ) ≤ t.fdiv ln2 := by
      have hint : 50001 ≤ t.fdiv ln2 := by omega
      exact_mod_cast hint
    nlinarith

theorem one_le_exp_remainder (t : ℤ) : 1 ≤ Real.exp ((t - t.fdiv ln2 * ln2 : ℤ) / unit) :=
  Real.one_le_exp (div_nonneg (by exact_mod_cast (remainder_bounds t).1) unit_pos.le)

/-- A shift to the left multiplies the error. -/
theorem Approx.shiftLeft {n : ℕ} {ξ ε : ℝ} (h : Approx n ξ ε) (k : ℕ) :
    Approx (Int.ofNat (n <<< k)) (2 ^ k * ξ) (2 ^ k * ε) := by
  have hshift : Int.ofNat (n <<< k) = 2 ^ k * (n : ℤ) := by
    rw [Nat.shiftLeft_eq, Int.ofNat_eq_natCast]
    push_cast
    ring
  have hmul := h.intMul (2 ^ k)
  push_cast at hmul
  rw [abs_of_pos (by positivity)] at hmul
  rw [hshift]
  exact hmul

/-- A shift to the right divides the error, and cuts. -/
theorem Approx.shiftRight {n : ℕ} {ξ ε : ℝ} (h : Approx n ξ ε) (k : ℕ) :
    Approx (Int.ofNat (n >>> k)) (ξ / 2 ^ k) (ε / 2 ^ k + 1) := by
  have hshift : Int.ofNat (n >>> k) = (n : ℤ).tdiv (2 ^ k) := by
    rw [Nat.shiftRight_eq_div_pow, Int.ofNat_eq_natCast, Int.tdiv_eq_ediv_of_nonneg (by positivity)]
    push_cast
    rfl
  have hdiv := h.tdiv (c := 2 ^ k) (by positivity)
  push_cast at hdiv
  rw [hshift]
  exact hdiv

theorem exp_eq_shift {t h : ℤ} (hh : t.fdiv ln2 = h) (hsize : |h| ≤ 50000) :
    ∃ x, exp t = .ok x ∧
      Approx x (2 ^ h * Real.exp ((t - h * ln2 : ℤ) / unit)) (2 ^ h * 50000 + 1) := by
  obtain ⟨hlow, hhigh⟩ := remainder_bounds t
  have hone := one_le_exp_remainder t
  rw [hh] at hlow hhigh hone
  have hsum := expSum_approx hlow hhigh
  obtain ⟨hneg, hpos⟩ := abs_le.mp hsize
  have hfits : fitsInt64 h = true := by
    simp only [fitsInt64, decide_eq_true_eq]
    omega
  have hmax : ¬ maxExponent < h := by
    rw [maxExponent]
    omega
  rw [exp, hh]
  generalize unit + sumTerms (expStep (t - h * ln2)) termLimit ⟨unit, 1⟩ = sum at *
  generalize Real.exp ((t - h * ln2 : ℤ) / unit) = ξ at *
  have hnonneg : 0 ≤ sum := by
    have hreal : (0 : ℝ) ≤ sum := by nlinarith [unit_ge, (abs_le.mp hsum).1]
    exact_mod_cast hreal
  obtain ⟨n, rfl⟩ := Int.eq_ofNat_of_zero_le hnonneg
  simp only [hfits, hmax, decide_false, Bool.not_true, Bool.or_self, Bool.false_eq_true, if_false,
    Int.toNat_natCast]
  split
  · next hleft =>
    obtain ⟨k, rfl⟩ := Int.eq_ofNat_of_zero_le hleft
    refine ⟨_, rfl, ?_⟩
    rw [zpow_natCast, Int.toNat_natCast]
    exact (hsum.shiftLeft k).mono (by linarith)
  · next hleft =>
    obtain ⟨k, hk⟩ := Int.eq_ofNat_of_zero_le (show 0 ≤ -h by omega)
    obtain rfl : h = -(k : ℤ) := by omega
    rw [if_neg (by rw [maxExponent]; omega)]
    refine ⟨_, rfl, ?_⟩
    rw [zpow_neg, zpow_natCast, inv_mul_eq_div, inv_mul_eq_div, neg_neg, Int.toNat_natCast]
    exact hsum.shiftRight k

/-! ### The exponential -/

/-- Each `ln 2` that is taken out of the argument brings its error in. -/
theorem reduced_argument_near {t : ℤ} {τ ε : ℝ} (ht : Approx t τ ε) (h : ℤ) :
    unit * |(h * Real.log 2 + (t - h * ln2 : ℤ) / unit) - τ| ≤ ε + |(h : ℝ)| * 6180 := by
  have hu := unit_pos
  have hsplit : unit * ((h * Real.log 2 + (t - h * ln2 : ℤ) / unit) - τ) =
      (t - unit * τ) - h * (ln2 - unit * Real.log 2) := by
    push_cast
    field_simp
    ring
  calc unit * |(h * Real.log 2 + (t - h * ln2 : ℤ) / unit) - τ|
      = |(t - unit * τ) - h * (ln2 - unit * Real.log 2)| := by
        rw [← hsplit, abs_mul, abs_of_pos hu]
    _ ≤ |t - unit * τ| + |(h : ℝ)| * |ln2 - unit * Real.log 2| := by
        rw [← abs_mul]
        exact abs_sub _ _
    _ ≤ ε + |(h : ℝ)| * 6180 :=
        add_le_add ht (mul_le_mul_of_nonneg_left ln2_approx (abs_nonneg _))

/-- An error of the argument is a relative error of the exponential. -/
theorem abs_exp_sub_exp_le {s t : ℝ} (h : |s - t| ≤ 1) :
    |Real.exp s - Real.exp t| ≤ Real.exp t * (2 * |s - t|) := by
  have hsplit : Real.exp s - Real.exp t = Real.exp t * (Real.exp (s - t) - 1) := by
    rw [mul_sub, ← Real.exp_add, add_sub_cancel, mul_one]
  rw [hsplit, abs_mul, abs_of_pos (Real.exp_pos t)]
  exact mul_le_mul_of_nonneg_left (Real.abs_exp_sub_one_le h) (Real.exp_pos t).le

theorem exp_approx {t : ℤ} {τ : ℝ} (ht : Approx t τ (3 * 10 ^ 8)) (hτ : |τ| ≤ 30000) :
    ∃ x, exp t = .ok x ∧ Approx x (Real.exp τ) (2 * 10 ^ 9 * Real.exp τ + 1) := by
  have hu := unit_pos
  have hbig := unit_ge
  have hsize : |t.fdiv ln2| ≤ 50000 := by
    refine abs_fdiv_ln2_le (ht.abs_le.trans ?_)
    nlinarith
  have hone := one_le_exp_remainder t
  generalize hh : t.fdiv ln2 = h at hsize hone
  have hsize' : |(h : ℝ)| ≤ 50000 := by exact_mod_cast hsize
  obtain ⟨x, hx, hshift⟩ := exp_eq_shift hh hsize
  refine ⟨x, hx, ?_⟩
  -- what is shifted is the exponential at `σ`, which is close to `τ`
  have hnear := (reduced_argument_near ht h).trans (show _ ≤ (7 * 10 ^ 8 : ℝ) by linarith)
  have hexp : Real.exp (h * Real.log 2 + (t - h * ln2 : ℤ) / unit) =
      2 ^ h * Real.exp ((t - h * ln2 : ℤ) / unit) := by
    rw [Real.exp_add, mul_comm (h : ℝ), Real.exp_mul, Real.exp_log two_pos, Real.rpow_intCast]
  have hpow : (2 : ℝ) ^ h ≤ 2 ^ h * Real.exp ((t - h * ln2 : ℤ) / unit) :=
    le_mul_of_one_le_right (by positivity) hone
  rw [← hexp] at hshift hpow
  generalize h * Real.log 2 + (t - h * ln2 : ℤ) / unit = σ at *
  have hclose : |σ - τ| ≤ 1 := by
    by_contra hlt
    nlinarith
  have hdiff := abs_exp_sub_exp_le hclose
  have hpos := Real.exp_pos τ
  have hhalvings : (2 : ℝ) ^ h ≤ 3 * Real.exp τ := by
    calc (2 : ℝ) ^ h ≤ Real.exp σ := hpow
      _ ≤ Real.exp τ + Real.exp τ * (2 * |σ - τ|) := by linarith [(abs_le.mp hdiff).2]
      _ ≤ 3 * Real.exp τ := by nlinarith
  refine (hshift.trans (δ := Real.exp τ * (2 * (7 * 10 ^ 8))) ?_).mono (by linarith)
  calc unit * |Real.exp σ - Real.exp τ| ≤ unit * (Real.exp τ * (2 * |σ - τ|)) :=
        mul_le_mul_of_nonneg_left hdiff hu.le
    _ = Real.exp τ * (2 * (unit * |σ - τ|)) := by ring
    _ ≤ Real.exp τ * (2 * (7 * 10 ^ 8)) := by gcongr

end FixedPoint

/-! ### Bases of ordinary size -/

theorem abs_position_le {b : Decimal} (hlow : (10 : ℝ) ^ (-100 : ℤ) ≤ b.toRat)
    (hhigh : (b.toRat : ℝ) ≤ 10 ^ (100 : ℤ)) (hb : 0 < b.mantissa) : |b.position| ≤ 101 := by
  obtain ⟨hfraction, hone⟩ := fraction_bounds hb
  have hten : (0 : ℝ) < 10 ^ b.position := zpow_pos (by norm_num) _
  rw [toRat_eq_fraction_mul] at hlow hhigh
  have hbelow : (10 : ℝ) ^ (-100 : ℤ) < 10 ^ b.position := by nlinarith
  have habove : (10 : ℝ) ^ (b.position - 1) ≤ 10 ^ (100 : ℤ) := by
    rw [zpow_sub_one₀ (by norm_num)]
    nlinarith
  rw [zpow_lt_zpow_iff_right₀ (by norm_num)] at hbelow
  rw [zpow_le_zpow_iff_right₀ (by norm_num)] at habove
  rw [abs_le]
  omega

theorem abs_log_le {x : ℝ} (hlow : (10 : ℝ) ^ (-100 : ℤ) ≤ x) (hhigh : x ≤ 10 ^ (100 : ℤ)) :
    |Real.log x| ≤ 290 := by
  have hten : Real.log 10 ≤ 2.8 := by
    have hsixteen : Real.log 10 ≤ Real.log (2 ^ 4) := Real.log_le_log (by norm_num) (by norm_num)
    rw [Real.log_pow] at hsixteen
    push_cast at hsixteen
    linarith [Real.log_two_lt_d9]
  have hpos : (0 : ℝ) < 10 ^ (-100 : ℤ) := zpow_pos (by norm_num) _
  have hbelow := Real.log_le_log hpos hlow
  have habove := Real.log_le_log (hpos.trans_le hlow) hhigh
  rw [Real.log_zpow] at hbelow habove
  push_cast at hbelow habove
  rw [abs_le]
  constructor <;> linarith

/-! ### Powers of ordinary size -/

/-- A base between `10 ^ (-100)` and `10 ^ 100`, an exponent that is no integer and at most
100, and a power of at most `10 ^ 10`. -/
structure OrdinaryPower (b e : Decimal) : Prop where
  base_ge : (10 : ℚ) ^ (-100 : ℤ) ≤ b.toRat
  base_le : b.toRat ≤ 10 ^ (100 : ℤ)
  exponent_fraction : ¬ ∃ n : ℤ, e.toRat = n
  exponent_le : |e.toRat| ≤ 100
  power_le : (b.toRat : ℝ) ^ (e.toRat : ℝ) ≤ 10 ^ 10

theorem OrdinaryPower.base_pos {b e : Decimal} (h : OrdinaryPower b e) : 0 < b.toRat :=
  lt_of_lt_of_le (zpow_pos (by norm_num) _) h.base_ge

/-- A positive base with an exponent that is no integer is raised by logarithm and
exponential. -/
theorem OrdinaryPower.pow_eq {b e : Decimal} (h : OrdinaryPower b e) :
    b.pow e = powMagnitude b e := by
  rcases pow_route e with ⟨n, hn, -⟩ | ⟨n, -, hn, -⟩ | ⟨-, hpow⟩
  · exact absurd ⟨n, by exact_mod_cast hn⟩ h.exponent_fraction
  · exact absurd ⟨-n, by exact_mod_cast hn⟩ h.exponent_fraction
  · exact (hpow b).trans (powReal_of_pos h.base_pos e)

/-- A number that is no integer has digits behind the point. -/
theorem scale_pos_of_fraction {d : Decimal} (h : ¬ ∃ n : ℤ, d.toRat = n) : 0 < d.scale := by
  by_contra hle
  refine h ⟨d.mantissa * 10 ^ (-d.scale).toNat, ?_⟩
  push_cast
  rw [toRat, ← zpow_natCast, Int.toNat_of_nonneg (by omega)]

theorem OrdinaryPower.powMagnitude_dist {b e : Decimal} (h : OrdinaryPower b e)
    (hdigits : digitCount b.mantissa.natAbs ≤ maxExponent + 70) (hscale : e.scale ≤ maxExponent + 70) :
    ∃ r, powMagnitude b e = .ok r ∧
      |(r.toRat : ℝ) - (b.toRat : ℝ) ^ (e.toRat : ℝ)| ≤ 10 ^ (-50 : ℤ) := by
  have hb := toRat_pos_iff.1 h.base_pos
  have hlow : (10 : ℝ) ^ (-100 : ℤ) ≤ b.toRat := by
    have hcast := (Rat.cast_le (K := ℝ)).mpr h.base_ge
    rwa [Rat.cast_zpow, Rat.cast_ofNat] at hcast
  have hhigh : (b.toRat : ℝ) ≤ 10 ^ (100 : ℤ) := by exact_mod_cast h.base_le
  have hexponent : |(e.toRat : ℝ)| ≤ 100 := by exact_mod_cast h.exponent_le
  obtain ⟨log, hlog, hlogNear⟩ := FixedPoint.ln_approx hb hdigits
  obtain ⟨y, hy, hyNear⟩ := FixedPoint.ofDecimal_approx (d := e) (by
    have hpos := scale_pos_of_fraction h.exponent_fraction
    rw [maxExponent] at *
    rw [abs_le]
    omega)
  have hlogLe := abs_log_le hlow hhigh
  have hposition : |(b.position : ℝ)| ≤ 101 := by exact_mod_cast abs_position_le hlow hhigh hb
  have hlogNear' := hlogNear.mono (show _ ≤ (2.6 * 10 ^ 6 : ℝ) by linarith)
  have hlogSize : |(log : ℝ)| ≤ FixedPoint.unit * 300 := by
    have hbig := FixedPoint.unit_ge
    refine hlogNear'.abs_le.trans ?_
    nlinarith
  have hproduct := (hyNear.mul hlogNear' hexponent hlogSize).mono
    (show _ ≤ (3 * 10 ^ 8 : ℝ) by norm_num)
  have hargument : |(e.toRat : ℝ) * Real.log b.toRat| ≤ 30000 := by
    rw [abs_mul]
    calc |(e.toRat : ℝ)| * |Real.log b.toRat| ≤ 100 * 290 :=
          mul_le_mul hexponent hlogLe (abs_nonneg _) (by norm_num)
      _ ≤ 30000 := by norm_num
  obtain ⟨x, hx, hxNear⟩ := FixedPoint.exp_approx hproduct hargument
  have hpower : (b.toRat : ℝ) ^ (e.toRat : ℝ) = Real.exp (e.toRat * Real.log b.toRat) := by
    rw [Real.rpow_def_of_pos (by exact_mod_cast h.base_pos), mul_comm]
  have hle := h.power_le
  rw [hpower] at hle ⊢
  exact ⟨_, powMagnitude_eq_ok hlog hy hx, FixedPoint.toDecimal_dist hxNear (by linarith)⟩

theorem powMagnitude_of_long_exponent {b e : Decimal} (hb : 0 < b.mantissa)
    (hdigits : digitCount b.mantissa.natAbs ≤ maxExponent + 70) (hscale : maxExponent + 70 < e.scale) :
    powMagnitude b e = .error (.overflow "conversion") := by
  obtain ⟨log, hlog, -⟩ := FixedPoint.ln_approx hb hdigits
  have hy : FixedPoint.ofDecimal e = .error (.overflow "conversion") := by
    apply FixedPoint.ofDecimal_of_lt
    rw [lt_abs]
    omega
  rw [powMagnitude, hlog, hy]
  rfl

theorem powMagnitude_of_long_base {b e : Decimal}
    (hdigits : maxExponent + 70 < digitCount b.mantissa.natAbs) :
    powMagnitude b e = .error (.overflow "logarithm") := by
  rw [powMagnitude, FixedPoint.ln_of_lt hdigits]
  rfl

/-- A power of ordinary size is right up to one unit of the last place, unless its base or
its exponent has more digits than the working scale can take in. -/
theorem fractional_powers_accurate {b e : Decimal} (h : OrdinaryPower b e) :
    (digitCount b.mantissa.natAbs ≤ maxExponent + 70 → e.scale ≤ maxExponent + 70 →
      ∃ r, b.pow e = .ok r ∧
        |(r.toRat : ℝ) - (b.toRat : ℝ) ^ (e.toRat : ℝ)| ≤ 10 ^ (-50 : ℤ)) ∧
    (digitCount b.mantissa.natAbs ≤ maxExponent + 70 → maxExponent + 70 < e.scale →
      b.pow e = .error (.overflow "conversion")) ∧
    (maxExponent + 70 < digitCount b.mantissa.natAbs → b.pow e = .error (.overflow "logarithm")) := by
  rw [h.pow_eq]
  exact ⟨h.powMagnitude_dist, powMagnitude_of_long_exponent (toRat_pos_iff.1 h.base_pos),
    powMagnitude_of_long_base⟩

/-- The smallest base, raised to the largest power. -/
theorem fractional_powers_accurate_at_smallest :
    OrdinaryPower ⟨1, 100⟩ ⟨-1, 1⟩ ∧
      ∃ r, pow ⟨1, 100⟩ ⟨-1, 1⟩ = .ok r ∧ |(r.toRat : ℝ) - 10 ^ 10| ≤ 10 ^ (-50 : ℤ) := by
  have hbase : (⟨1, 100⟩ : Decimal).toRat = 10 ^ (-100 : ℤ) := by rw [toRat, Int.cast_one, one_mul]
  have hexponent : (⟨-1, 1⟩ : Decimal).toRat = -1 / 10 := by norm_num [toRat]
  have hpower : ((⟨1, 100⟩ : Decimal).toRat : ℝ) ^ ((⟨-1, 1⟩ : Decimal).toRat : ℝ) = 10 ^ 10 := by
    have hcast : ((10 ^ (-100 : ℤ) : ℚ) : ℝ) = (10 : ℝ) ^ (-100 : ℝ) := by
      rw [Rat.cast_zpow, ← Real.rpow_intCast]
      norm_num
    rw [hbase, hexponent, hcast, ← Real.rpow_mul (by norm_num), ← Real.rpow_natCast]
    norm_num
  have hordinary : OrdinaryPower ⟨1, 100⟩ ⟨-1, 1⟩ := by
    refine ⟨hbase.ge, ?_, ?_, ?_, hpower.le⟩
    · rw [hbase]
      exact zpow_le_zpow_right₀ (by norm_num) (by norm_num)
    · rw [hexponent]
      exact not_integer_of_abs_lt_one (by norm_num) (by norm_num [abs_div])
    · rw [hexponent]
      norm_num [abs_div]
  refine ⟨hordinary, ?_⟩
  rw [← hpower]
  exact (fractional_powers_accurate hordinary).1 (by decide) (by decide)

/-- Either the exponent or the base can have too many digits, however ordinary the numbers
are: here two is raised to a tiny number, and one to a half. -/
theorem fractional_power_overflows :
    (OrdinaryPower ⟨2, 0⟩ ⟨1, 5000000000⟩ ∧
      pow ⟨2, 0⟩ ⟨1, 5000000000⟩ = .error (.overflow "conversion")) ∧
    ∃ b, OrdinaryPower b ⟨5, 1⟩ ∧ b.pow ⟨5, 1⟩ = .error (.overflow "logarithm") := by
  constructor
  · have hbase : (⟨2, 0⟩ : Decimal).toRat = 2 := by norm_num [toRat]
    have hpos : 0 < (⟨1, 5000000000⟩ : Decimal).toRat := mul_pos (by norm_num) (zpow_pos (by norm_num) _)
    have hlt : (⟨1, 5000000000⟩ : Decimal).toRat < 1 := by
      rw [toRat, Int.cast_one, one_mul]
      exact zpow_lt_one_of_neg₀ (by norm_num) (by norm_num)
    generalize hlong : (⟨1, 5000000000⟩ : Decimal) = e at *
    have hordinary : OrdinaryPower ⟨2, 0⟩ e := by
      refine ⟨?_, ?_, ?_, ?_, ?_⟩
      · rw [hbase]
        norm_num
      · rw [hbase]
        norm_num
      · exact not_integer_of_abs_lt_one hpos.ne' (by rwa [abs_of_pos hpos])
      · rw [abs_of_pos hpos]
        linarith
      · rw [hbase]
        calc ((2 : ℚ) : ℝ) ^ (e.toRat : ℝ) ≤ ((2 : ℚ) : ℝ) ^ (1 : ℝ) :=
              Real.rpow_le_rpow_of_exponent_le (by norm_num) (by exact_mod_cast hlt.le)
          _ ≤ 10 ^ 10 := by norm_num
    refine ⟨hordinary, ?_⟩
    rw [hordinary.pow_eq]
    apply powMagnitude_of_long_exponent (by decide) (by decide)
    rw [← hlong]
    decide
  · -- one, with so many zeros behind the point that they can not be taken off
    obtain ⟨k, hk⟩ : ∃ k : ℕ, (k : ℤ) = maxExponent + 70 := ⟨4294967365, rfl⟩
    have hbase : (⟨10 ^ k, k⟩ : Decimal).toRat = 1 := by
      rw [toRat, zpow_neg, zpow_natCast]
      push_cast
      exact mul_inv_cancel₀ (by positivity)
    have hdigits : maxExponent + 70 < digitCount (⟨10 ^ k, k⟩ : Decimal).mantissa.natAbs := by
      have hlt := lt_ten_pow_digitCount (10 ^ k)
      rw [Nat.pow_lt_pow_iff_right (by norm_num)] at hlt
      rw [← hk, Int.natAbs_pow]
      exact_mod_cast hlt
    have hexponent : (⟨5, 1⟩ : Decimal).toRat = 1 / 2 := by norm_num [toRat]
    have hordinary : OrdinaryPower ⟨10 ^ k, k⟩ ⟨5, 1⟩ := by
      refine ⟨?_, ?_, ?_, ?_, ?_⟩
      · rw [hbase]
        norm_num
      · rw [hbase]
        norm_num
      · rw [hexponent]
        exact not_integer_of_abs_lt_one (by norm_num) (by norm_num [abs_div])
      · rw [hexponent]
        norm_num [abs_div]
      · rw [hbase, Rat.cast_one, Real.one_rpow]
        norm_num
    exact ⟨_, hordinary, hordinary.pow_eq.trans (powMagnitude_of_long_base hdigits)⟩

end LazyExpr.Decimal
