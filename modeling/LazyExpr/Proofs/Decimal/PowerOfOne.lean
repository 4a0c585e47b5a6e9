/-
LazyExpr/Proofs/Decimal/PowerOfOne.lean

Which powers of one are one.

A power of one with an integer exponent of ordinary size is exact.  Every other power is
found by logarithm and exponential, and the logarithm of one is put together from constants
that have been cut, so it comes out as minus ten units of the last place instead of zero
(`ln_of_toRat_eq_one`).  The exponent multiplies this error.  As long as the product stays
below half a unit of the last place of the result, rounding removes it, and beyond that the
power is another number.

The bounds are exact (`exp_near_one_iff`).  The exponential is a sum of terms that grow with
the argument, so it is monotone, cuts included (`expAt_mono`), and each bound needs the
exponential at two neighbouring arguments only.  The two bounds are not opposite: for a
positive exponent the argument is negative, `ln 2` is added to it and the result is halved,
and the errors of this detour add to the one that the exponent has multiplied.
-/
import LazyExpr.Proofs.Decimal.FractionalPower
import LazyExpr.Proofs.Decimal.Monotonicity

namespace LazyExpr.Decimal

namespace FixedPoint

/-! ### The exponential by its terms -/

/-- The sum of the series of the exponential. -/
def expAt (r : ℕ) : ℕ :=
  powTen workingScale + ((termSums r (fun k => k) termLimit (powTen workingScale) 1).1 +
    (termSums r (fun k => k) termLimit (powTen workingScale) 1).2)

theorem expSum_eq_expAt (r : ℕ) : unit + sumTerms (expStep r) termLimit ⟨unit, 1⟩ = expAt r := by
  rw [expStep_eq, expAt, Nat.cast_add, Nat.cast_add]
  exact congrArg (unit + ·) (sumTerms_ratioStep_of_pos _ _ _ _ _)

theorem expAt_mono {r s : ℕ} (h : r ≤ s) : expAt r ≤ expAt s := by
  obtain ⟨hodd, heven⟩ := termSums_mono h (fun k => k) termLimit (le_refl (powTen workingScale)) 1
  exact Nat.add_le_add_left (Nat.add_le_add hodd heven) _

theorem le_expAt (r : ℕ) : powTen workingScale ≤ expAt r := Nat.le_add_right _ _

/-- An exponential that is found is the sum of the series, shifted. -/
theorem exp_eq_ok {t x h : ℤ} {r : ℕ} (hh : t.fdiv ln2 = h) (hr : t - h * ln2 = r)
    (hx : exp t = .ok x) :
    (0 ≤ h → x = (expAt r <<< h.toNat : ℕ)) ∧
      (h < 0 → x = 0 ∧ maxExponent < -h ∨ x = (expAt r >>> (-h).toNat : ℕ)) := by
  simp only [exp, hh, hr, expSum_eq_expAt, Int.toNat_natCast] at hx
  split at hx
  · cases hx
  · split at hx
    · next hleft =>
      obtain rfl := Except.ok.inj hx
      exact ⟨fun _ => rfl, fun hneg => absurd hleft (not_le.mpr hneg)⟩
    · next hleft =>
      refine ⟨fun hpos => absurd hpos hleft, fun _ => ?_⟩
      split at hx
      · next hlarge => exact .inl ⟨(Except.ok.inj hx).symm, hlarge⟩
      · exact .inr (Except.ok.inj hx).symm

/-- The number for `ln 2`. -/
def ln2Nat : ℕ := 6931471805599453094172321214581765680755001343602552541206800094933862

/-- The series at `ln 2`, and at the neighbouring arguments where it passes the bounds of what
is rounded to one.  The second bound is for a sum that will be halved. -/
theorem expAt_values :
    ln2 = ln2Nat ∧ expAt ln2Nat ≤ 2 * 10 ^ 70 ∧
    expAt (5 * 10 ^ 19 - 1) < 10 ^ 70 + 5 * 10 ^ 19 ∧ 10 ^ 70 + 5 * 10 ^ 19 ≤ expAt (5 * 10 ^ 19) ∧
    expAt (ln2Nat - (5 * 10 ^ 19 - 88)) < 2 * (10 ^ 70 - 5 * 10 ^ 19) ∧
    2 * (10 ^ 70 - 5 * 10 ^ 19) ≤ expAt (ln2Nat - (5 * 10 ^ 19 - 89)) := by
  decide +kernel

theorem expAt_le_two {r : ℕ} (h : r < ln2Nat) : expAt r ≤ 2 * 10 ^ 70 :=
  (expAt_mono h.le).trans expAt_values.2.1

/-- What is left of the argument when `ln 2` has been taken out or added once at most, and the
size of the exponential otherwise. -/
theorem exp_eq_ok_cases {t x : ℤ} (hx : exp t = .ok x) :
    (ln2Nat ≤ t ∧ 2 * 10 ^ 70 ≤ x) ∨ (∃ r : ℕ, t = r ∧ r < ln2Nat ∧ x = expAt r) ∨
      (∃ r : ℕ, t = r - ln2Nat ∧ r < ln2Nat ∧ x = (expAt r / 2 : ℕ)) ∨
      (t < -ln2Nat ∧ x ≤ 5 * 10 ^ 69) := by
  obtain ⟨hlow, hhigh⟩ := remainder_bounds t
  generalize hh : t.fdiv ln2 = h at hlow hhigh
  obtain ⟨r, hr⟩ := Int.eq_ofNat_of_zero_le hlow
  obtain ⟨hleft, hright⟩ := exp_eq_ok hh hr hx
  rw [hr] at hhigh
  rw [expAt_values.1] at hr hhigh
  have hlt : r < ln2Nat := by exact_mod_cast hhigh
  have hone : 10 ^ 70 ≤ expAt r := le_expAt r
  have htwo := expAt_le_two hlt
  rcases lt_trichotomy h 0 with hneg | rfl | hpos
  · rcases eq_or_lt_of_le (show h ≤ -1 by omega) with rfl | hfar
    · -- halved once
      refine .inr (.inr (.inl ⟨r, by omega, hlt, ?_⟩))
      rcases hright hneg with ⟨-, hlarge⟩ | hshift
      · exact absurd hlarge (by decide)
      · rw [hshift, Nat.shiftRight_eq_div_pow]
        rfl
    · -- halved twice or more, and at most a quarter of two is left
      refine .inr (.inr (.inr ⟨?_, ?_⟩))
      · simp only [ln2Nat] at *
        omega
      · rcases hright hneg with ⟨hzero, -⟩ | hshift
        · omega
        · have hfour : 2 ^ 2 ≤ 2 ^ (-h).toNat := Nat.pow_le_pow_right (by norm_num) (by omega)
          have hquarter : expAt r / 2 ^ (-h).toNat ≤ expAt r / 2 ^ 2 :=
            Nat.div_le_div_left hfour (by norm_num)
          rw [hshift, Nat.shiftRight_eq_div_pow]
          omega
  · exact .inr (.inl ⟨r, by omega, hlt, hleft le_rfl⟩)
  · -- doubled, and it was one at least
    refine .inl ⟨?_, ?_⟩
    · simp only [ln2Nat] at *
      omega
    · have hdouble : 2 ^ 1 ≤ 2 ^ h.toNat := Nat.pow_le_pow_right (by norm_num) (by omega)
      have hmul := Nat.mul_le_mul_left (expAt r) hdouble
      rw [hleft hpos.le, Nat.shiftLeft_eq]
      omega

/-! ### Arguments close to zero -/

/-- Two neighbouring arguments settle where the series passes a bound. -/
theorem expAt_lt_iff {a bound : ℕ} (hbelow : expAt a < bound) (habove : bound ≤ expAt (a + 1)) (r : ℕ) :
    expAt r < bound ↔ r ≤ a := by
  constructor
  · intro h
    by_contra hlt
    exact absurd (habove.trans (expAt_mono (not_le.mp hlt))) (not_le.mpr h)
  · intro h
    exact (expAt_mono h).trans_lt hbelow

/-- The exponential is one, up to half a unit of the last place of a result, for these
arguments and no others. -/
theorem exp_near_one_iff {t x : ℤ} (hx : exp t = .ok x) :
    (10 ^ 70 - 5 * 10 ^ 19 ≤ x ∧ x < 10 ^ 70 + 5 * 10 ^ 19) ↔
      -(5 * 10 ^ 19 - 89) ≤ t ∧ t < 5 * 10 ^ 19 := by
  have hlarge : 5 * 10 ^ 19 < ln2Nat := by decide
  obtain ⟨-, -, hbelow, habove, hbelow', habove'⟩ := expAt_values
  rcases exp_eq_ok_cases hx with ⟨ht, hx⟩ | ⟨r, ht, -, hx⟩ | ⟨r, ht, hr, hx⟩ | ⟨ht, hx⟩
  · omega
  · have hone : 10 ^ 70 ≤ expAt r := le_expAt r
    have hbound := expAt_lt_iff hbelow habove r
    omega
  · have htwo := expAt_le_two hr
    have hbound := expAt_lt_iff hbelow' habove' r
    omega
  · omega

/-- What the last rounding turns into one. -/
theorem toDecimal_eq_one_iff (x : ℤ) :
    (toDecimal x).toRat = 1 ↔ 10 ^ 70 - 5 * 10 ^ 19 ≤ x ∧ x < 10 ^ 70 + 5 * 10 ^ 19 := by
  have hvalue : (toDecimal x).toRat = divRound x (10 ^ 20 : ℕ) * 10 ^ (-50 : ℤ) := rfl
  have hone : (toDecimal x).toRat = 1 ↔ divRound x (10 ^ 20 : ℕ) = 10 ^ 50 := by
    rw [hvalue, zpow_neg, ← div_eq_mul_inv, div_eq_one_iff_eq (by norm_num)]
    norm_cast
  -- a tie goes away from zero: the one below is rounded to one, and the one above is not
  obtain ⟨hdist, htie⟩ := divRound_dist x (show ((10 ^ 20 : ℕ) : ℤ) ≠ 0 by norm_num)
  rw [hone]
  generalize divRound x (10 ^ 20 : ℕ) = q at *
  simp only [Int.abs_eq_natAbs] at hdist htie
  omega

/-! ### Conversion -/

theorem tdiv_lt_iff {a b bound : ℤ} (hb : 0 < b) (hbound : 0 < bound) :
    a.tdiv b < bound ↔ a < bound * b := by
  refine ⟨Int.lt_mul_of_tdiv_lt hb, fun h => ?_⟩
  rcases le_or_gt 0 a with ha | ha
  · rw [Int.tdiv_eq_ediv_of_nonneg ha]
    exact Int.ediv_lt_of_lt_mul hb h
  · have hneg := Int.tdiv_nonneg (a := -a) (b := b) (by omega) hb.le
    rw [Int.neg_tdiv] at hneg
    omega

theorem tenPow_eq_ok {e p : ℤ} {operation : String} (h : tenPow e operation = .ok p) :
    0 < p ∧ (p : ℚ) = 10 ^ e := by
  rw [tenPow] at h
  split at h
  · next he =>
    obtain rfl := Except.ok.inj h
    have hpos : (0 : ℤ) < (10 ^ e.toNat : ℕ) := by positivity
    exact ⟨hpos, zpow_ten_toNat he.1⟩
  · cases h

/-- A number is below a positive integer exactly if it is when its fraction is cut off. -/
theorem tenShift_lt_iff {m shift y bound : ℤ} {operation : String}
    (h : tenShift m shift operation = .ok y) (hbound : 0 < bound) :
    y < bound ↔ (m : ℚ) * 10 ^ shift < bound := by
  rw [tenShift] at h
  split at h
  · rcases hp : tenPow shift operation with err | p
    · rw [hp] at h
      cases h
    · rw [hp] at h
      obtain rfl := Except.ok.inj h
      rw [← (tenPow_eq_ok hp).2]
      norm_cast
  · rcases hp : tenPow (-shift) operation with err | p
    · rw [hp] at h
      cases h
    · rw [hp] at h
      obtain rfl := Except.ok.inj h
      obtain ⟨hpos, hvalue⟩ := tenPow_eq_ok hp
      have hpos' : (0 : ℚ) < p := by exact_mod_cast hpos
      have hshift : (10 : ℚ) ^ shift = (p : ℚ)⁻¹ := by rw [hvalue, zpow_neg, inv_inv]
      rw [tdiv_lt_iff hpos hbound, hshift, ← div_eq_mul_inv, div_lt_iff₀ hpos']
      norm_cast

theorem ofDecimal_lt_iff {d : Decimal} {y bound : ℤ} (h : ofDecimal d = .ok y) (hbound : 0 < bound) :
    y < bound ↔ d.toRat * 10 ^ 70 < bound := by
  have hvalue : (d.mantissa : ℚ) * 10 ^ (70 - d.scale) = d.toRat * 10 ^ 70 := by
    rw [toRat, sub_eq_add_neg, add_comm, zpow_add₀ (by norm_num), mul_assoc]
    norm_cast
  rw [ofDecimal_eq] at h
  rw [tenShift_lt_iff h hbound, hvalue]

/-- An exponent is cut twice, when it is converted and when it is multiplied by a multiple of
ten units, and a bound for the product is a bound for the exponent. -/
theorem mul_ten_lt_iff {d : Decimal} {y bound : ℤ} (h : ofDecimal d = .ok y) (hbound : 0 < bound) :
    mul y 10 < bound ↔ d.toRat < bound / 10 := by
  have hunit : unit = 10 ^ 70 := rfl
  have hscaled : y * 10 < bound * unit ↔ y < bound * 10 ^ 69 := by
    rw [hunit]
    omega
  rw [mul, tdiv_lt_iff (by rw [hunit]; norm_num) hbound, hscaled, ofDecimal_lt_iff h (by positivity),
    ← lt_div_iff₀ (by positivity)]
  push_cast
  rw [mul_div_assoc]
  norm_num [div_eq_mul_inv]

/-! ### The logarithm of one -/

theorem digitCount_ten_pow (k : ℕ) : digitCount (10 ^ k) = k + 1 := by
  have hlow := (Nat.pow_lt_pow_iff_right (by norm_num)).mp (lt_ten_pow_digitCount (10 ^ k))
  have hhigh := (Nat.pow_le_pow_iff_right (by norm_num)).mp
    (ten_pow_le_of_digitCount (show 0 < 10 ^ k by positivity))
  omega

/-- One, with some number of zeros behind the point. -/
theorem eq_of_toRat_eq_one {b : Decimal} (hb : b.toRat = 1) : ∃ k : ℕ, b = ⟨10 ^ k, k⟩ := by
  have hone : one.toRat = 1 := by simp [one]
  have hscale : 0 ≤ b.scale := by
    by_contra hneg
    have hnormal : one.IsNormal := ⟨fun _ => by decide, fun hzero => absurd hzero (by decide)⟩
    exact hneg (hnormal.scale_le (hb.trans hone.symm) (not_le.mp hneg).le (by decide))
  obtain ⟨m, s⟩ := b
  obtain ⟨k, rfl⟩ := Int.eq_ofNat_of_zero_le hscale
  have hm := (toRat_eq_iff_of_scale_le (a := one) hscale).mp (hone.trans hb.symm)
  obtain rfl : 10 ^ k = m := by simpa [mantissaAt, one, ofInt, powTen] using hm
  exact ⟨k, rfl⟩

/-- The logarithm of one is not zero. -/
theorem ln_one : ln one = .ok (-10) := by decide +kernel

theorem ln_of_toRat_eq_one {b : Decimal} {log : ℤ} (hb : b.toRat = 1) (h : ln b = .ok log) :
    log = -10 := by
  obtain ⟨k, rfl⟩ := eq_of_toRat_eq_one hb
  have hdigits : digitCount (10 ^ k : ℤ).natAbs = k + 1 := by
    rw [Int.natAbs_pow]
    exact digitCount_ten_pow k
  rw [ln_eq, position] at h
  simp only [hdigits] at h
  rcases hy : tenShift (10 ^ k) (70 - ((k + 1 : ℕ) : ℤ)) "logarithm" with err | y
  · rw [hy] at h
    cases h
  · -- the digit is brought to the first place behind the point, whatever follows it
    obtain rfl : y = 10 ^ 69 := by
      have hvalue : (((10 ^ k : ℤ) : ℤ) : ℚ) * 10 ^ (70 - ((k + 1 : ℕ) : ℤ)) = 10 ^ 69 := by
        push_cast
        rw [← zpow_natCast, ← zpow_add₀ (by norm_num), show (k : ℤ) + (70 - (k + 1)) = 69 by ring]
        norm_num
      have hlow := tenShift_lt_iff hy (show 0 < 10 ^ 69 by norm_num)
      have hhigh := tenShift_lt_iff hy (show 0 < 10 ^ 69 + 1 by norm_num)
      rw [hvalue] at hlow hhigh
      norm_num at hlow hhigh
      omega
    rw [hy] at h
    obtain rfl := Except.ok.inj h
    have hposition : (((k + 1 : ℕ) : ℤ) - k : ℤ) = 1 := by omega
    have hone := (ln_eq one).symm.trans ln_one
    rw [hposition]
    exact Except.ok.inj hone

end FixedPoint

/-! ### Powers -/

/-- One, raised by way of logarithm and exponential.  The exponent is multiplied by minus ten
units of the last place and cut. -/
theorem powMagnitude_eq_one_iff {b e r : Decimal} (hb : b.toRat = 1) (h : powMagnitude b e = .ok r) :
    r.toRat = 1 ↔ -(5 * 10 ^ 18) < e.toRat ∧ e.toRat < 5 * 10 ^ 18 - 44 / 5 := by
  obtain ⟨log, y, x, hlog, hy, hx, rfl⟩ := exists_of_powMagnitude_eq_ok h
  obtain rfl := FixedPoint.ln_of_toRat_eq_one hb hlog
  have hneg : FixedPoint.ofDecimal e.neg = .ok (-y) := by
    rw [FixedPoint.ofDecimal_neg, hy]
    rfl
  -- the logarithm is negative, so the lower bound for the exponent is the upper one for the product
  have hproduct : FixedPoint.mul y (-10) = -FixedPoint.mul y 10 := by simp [FixedPoint.mul]
  have hopposite : FixedPoint.mul (-y) 10 = -FixedPoint.mul y 10 := by simp [FixedPoint.mul]
  have hlow : -FixedPoint.mul y 10 < 5 * 10 ^ 19 ↔ -(5 * 10 ^ 18) < e.toRat := by
    rw [← hopposite, FixedPoint.mul_ten_lt_iff hneg (by norm_num), toRat_neg, neg_lt]
    norm_num
  have hhigh : -(5 * 10 ^ 19 - 89) ≤ -FixedPoint.mul y 10 ↔ e.toRat < 5 * 10 ^ 18 - 44 / 5 := by
    have hint : -(5 * 10 ^ 19 - 89) ≤ -FixedPoint.mul y 10 ↔ FixedPoint.mul y 10 < 5 * 10 ^ 19 - 88 := by
      omega
    rw [hint, FixedPoint.mul_ten_lt_iff hy (by norm_num)]
    norm_num
  rw [FixedPoint.toDecimal_eq_one_iff, FixedPoint.exp_near_one_iff hx, hproduct, hlow, hhigh, and_comm]

theorem div_one_eq_one {p r : Decimal} (hp : p.toRat = 1) (h : one.div p = .ok r) : r.toRat = 1 := by
  obtain ⟨-, q, rfl, hnear⟩ := div_eq_ok h
  rw [hp, show one.toRat = 1 by simp [one]] at hnear
  have hexact : Nearest (1 / 1 * 10 ^ 50) (10 ^ 50) := nearest_of_dist (by norm_num) (by norm_num)
  rw [hnear.unique hexact]
  norm_num [toRat]

theorem natCast_lt_of_exact {n : ℕ} (h : n < exactExponentLimit) : (n : ℚ) < 2147483647 := by
  have hint : (n : ℤ) < 2147483647 := h
  exact_mod_cast hint

/-- Where a power of one is found, it is one exactly for the exponents between these bounds. -/
theorem pow_of_one_eq_one_iff {b e r : Decimal} (hb : b.toRat = 1) (h : b.pow e = .ok r) :
    r.toRat = 1 ↔ -(5 * 10 ^ 18) < e.toRat ∧ e.toRat < 5 * 10 ^ 18 - 44 / 5 := by
  have hpos : 0 < b.toRat := by
    rw [hb]
    exact one_pos
  rcases pow_route e with ⟨n, hn, hlimit, hpow⟩ | ⟨n, -, hn, hlimit, hpow⟩ | ⟨-, hpow⟩
  · have hone : r.toRat = 1 := by
      rw [toRat_of_powNat ((hpow b).symm.trans h), hb, one_pow]
    have hlt := natCast_lt_of_exact hlimit
    have hge : (0 : ℚ) ≤ n := n.cast_nonneg
    rw [hn]
    exact iff_of_true hone ⟨by linarith, by linarith⟩
  · have hone : r.toRat = 1 := by
      have hb₀ : b.isZero = false := Bool.eq_false_iff.mpr fun hz => hpos.ne' (isZero_iff.mp hz)
      rw [hpow, hb₀] at h
      rcases hp : b.powNat n with err | p
      · rw [hp] at h
        cases h
      · rw [hp] at h
        exact div_one_eq_one (by rw [toRat_of_powNat hp, hb, one_pow]) h
    have hlt := natCast_lt_of_exact hlimit
    have hge : (0 : ℚ) ≤ n := n.cast_nonneg
    rw [hn]
    exact iff_of_true hone ⟨by linarith, by linarith⟩
  · rw [hpow, powReal_of_pos hpos] at h
    exact powMagnitude_eq_one_iff hb h

theorem pow_eq_powMagnitude {b e : Decimal} (hb : 0 < b.toRat) (he : 2147483647 ≤ |e.toRat|) :
    b.pow e = powMagnitude b e := by
  rcases pow_route e with ⟨n, hn, hlimit, -⟩ | ⟨n, -, hn, hlimit, -⟩ | ⟨-, hpow⟩
  · rw [hn, Nat.abs_cast] at he
    exact absurd (natCast_lt_of_exact hlimit) (not_lt.mpr he)
  · rw [hn, abs_neg, Nat.abs_cast] at he
    exact absurd (natCast_lt_of_exact hlimit) (not_lt.mpr he)
  · rw [hpow, powReal_of_pos hb]

/-- With a zero behind the point and the largest integer exponent below the bound, one is
still raised to one. -/
theorem pow_of_one_eq_one_at_bound :
    (⟨10, 1⟩ : Decimal).toRat = 1 ∧ ∃ r, pow ⟨10, 1⟩ ⟨4999999999999999991, 0⟩ = .ok r ∧ r.toRat = 1 := by
  have hbase : (⟨10, 1⟩ : Decimal).toRat = 1 := by norm_num [toRat]
  have hexponent : (⟨4999999999999999991, 0⟩ : Decimal).toRat = 4999999999999999991 := by norm_num [toRat]
  have hlog : FixedPoint.ln ⟨10, 1⟩ = .ok (-10) := by
    rw [← FixedPoint.ln_one, FixedPoint.ln_eq, FixedPoint.ln_eq]
    rfl
  have hy : FixedPoint.ofDecimal ⟨4999999999999999991, 0⟩ = .ok (4999999999999999991 * 10 ^ 70) := rfl
  have hhalvings : (FixedPoint.mul (4999999999999999991 * 10 ^ 70) (-10)).fdiv FixedPoint.ln2 = -1 := by
    rw [FixedPoint.expAt_values.1]
    decide
  obtain ⟨x, hx, -⟩ := FixedPoint.exp_eq_shift hhalvings (by norm_num)
  have hpow := (pow_eq_powMagnitude (by rw [hbase]; exact one_pos) (by rw [hexponent]; norm_num)).trans
    (powMagnitude_eq_ok hlog hy hx)
  refine ⟨hbase, _, hpow, (pow_of_one_eq_one_iff hbase hpow).mpr ?_⟩
  rw [hexponent]
  norm_num

/-- An exponent that is too large does not raise one to one. -/
theorem pow_of_one_ne_one :
    one.pow ⟨1, -19⟩ = .ok ⟨10 ^ 50 - 1, 50⟩ ∧ (⟨10 ^ 50 - 1, 50⟩ : Decimal).toRat ≠ 1 := by
  have hexponent : (⟨1, -19⟩ : Decimal).toRat = 10 ^ 19 := by norm_num [toRat]
  have hy : FixedPoint.ofDecimal ⟨1, -19⟩ = .ok (10 ^ 89) := rfl
  have hx : FixedPoint.exp (FixedPoint.mul (10 ^ 89) (-10)) =
      .ok 9999999999999999999999999999999999999999999999999899999999999999999912 := by decide +kernel
  constructor
  · rw [pow_eq_powMagnitude (by simp [one]) (by rw [hexponent]; norm_num),
      powMagnitude_eq_ok FixedPoint.ln_one hy hx]
    rfl
  · norm_num [toRat]

end LazyExpr.Decimal
