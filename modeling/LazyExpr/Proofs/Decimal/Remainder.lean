/-
LazyExpr/Proofs/Decimal/Remainder.lean

The remainder is what is left by the quotient cut off toward zero.

Both operands are written with the larger of their scales, and there the remainder of the
numbers is that of two integers (`rem_of_near`).  The quotient that goes with it is the
exact one without its fractional part (`truncate_div`).  It is not the quotient that
`div` gives: one that misses an integer by less than half a unit of the last place is
rounded to it, and cut off it is one less.

Cutting off is described by its result alone.  An integer that lies between zero and `x`,
less than one away from `x`, is the only one (`truncate_eq`).
-/
import LazyExpr.Proofs.Decimal.Rounding
import Mathlib.Data.Sign.Basic

namespace LazyExpr.Decimal

/-! ### The remainder of integers -/

/-- A remainder that is not zero has the sign of the dividend. -/
theorem sign_tmod (n d : ℤ) : n.tmod d = 0 ∨ SignType.sign (n.tmod d) = SignType.sign n := by
  rcases lt_trichotomy n 0 with hn | rfl | hn
  · have hle : n.tmod d ≤ 0 := by
      rw [← neg_nonneg, ← Int.neg_tmod]
      exact Int.tmod_nonneg d (by omega)
    rcases hle.lt_or_eq with hlt | heq
    · exact .inr (by rw [sign_neg hlt, sign_neg hn])
    · exact .inl heq
  · exact .inl (Int.zero_tmod d)
  · rcases (Int.tmod_nonneg d hn.le).lt_or_eq with hlt | heq
    · exact .inr (by rw [sign_pos hlt, sign_pos hn])
    · exact .inl heq.symm

/-! ### The remainder of decimals -/

theorem sign_toRat (d : Decimal) : SignType.sign d.toRat = SignType.sign d.mantissa := by
  have hpos : (0 : ℚ) < 10 ^ (-d.scale) := zpow_pos (by norm_num) _
  rw [toRat, sign_mul, sign_pos hpos, mul_one]
  rcases lt_trichotomy d.mantissa 0 with h | h | h
  · rw [sign_neg h, sign_neg (by exact_mod_cast h)]
  · rw [h, Int.cast_zero, sign_zero, sign_zero]
  · rw [sign_pos h, sign_pos (by exact_mod_cast h)]

theorem rem_of_isZero {a b : Decimal} (hb : b.isZero = true) : a.rem b = .error .moduloByZero := by
  rw [rem, hb]
  rfl

theorem rem_of_not_isZero {a b : Decimal} (hb : b.isZero = false) :
    a.rem b = (do
      let p ← tenPow (max a.scale b.scale - a.scale) "modulo"
      let q ← tenPow (max a.scale b.scale - b.scale) "modulo"
      return ⟨(a.mantissa * p).tmod (b.mantissa * q), max a.scale b.scale⟩) := by
  rw [rem, hb]
  rfl

/-- Scales that are too far apart: one of the two powers of ten is too large. -/
theorem rem_of_far {a b : Decimal} (hb : b.isZero = false) (h : maxExponent < |a.scale - b.scale|) :
    a.rem b = .error (.overflow "modulo") := by
  rw [rem_of_not_isZero hb]
  rcases le_total a.scale b.scale with hle | hle
  · rw [abs_of_nonpos (by omega)] at h
    rw [max_eq_right hle, tenPow_of_lt _ (by omega)]
    rfl
  · rw [abs_of_nonneg (by omega)] at h
    rw [max_eq_left hle, tenPow_of_lt (e := a.scale - b.scale) _ h, sub_self]
    rfl

/-- At the larger scale the numbers are integers, and the remainder is theirs. -/
theorem rem_of_near {a b : Decimal} (hb : b.isZero = false) (h : |a.scale - b.scale| ≤ maxExponent) :
    a.rem b = .ok ⟨(a.mantissaAt (max a.scale b.scale)).tmod (b.mantissaAt (max a.scale b.scale)),
      max a.scale b.scale⟩ := by
  obtain ⟨hlow, hhigh⟩ := abs_le.mp h
  have hzero : (0 : ℤ) ≤ maxExponent := by decide
  rw [rem_of_not_isZero hb, tenPow_of_le _ (by omega) (by omega),
    tenPow_of_le _ (by omega) (by omega)]
  rfl

/-- What the remainder is, said of the numbers. -/
theorem rem_spec {a b r : Decimal} (hb : b.isZero = false) (hr : a.rem b = .ok r) :
    a.toRat = truncate (a.toRat / b.toRat) * b.toRat + r.toRat ∧ |r.toRat| < |b.toRat| ∧
      (r.toRat = 0 ∨ SignType.sign r.toRat = SignType.sign a.toRat) := by
  have hnear : |a.scale - b.scale| ≤ maxExponent := by
    by_contra hfar
    cases hr.symm.trans (rem_of_far hb (not_le.mp hfar))
  obtain rfl := Except.ok.inj (hr.symm.trans (rem_of_near hb hnear))
  -- from here on everything is an integer times the same power of ten
  have ha : a.toRat = _ := toRat_eq_mantissaAt (le_max_left a.scale b.scale)
  have hb' : b.toRat = _ := toRat_eq_mantissaAt (le_max_right a.scale b.scale)
  have hne : b.toRat ≠ 0 := fun h => by simp [isZero_iff.mpr h] at hb
  generalize a.mantissaAt (max a.scale b.scale) = n at ha
  generalize b.mantissaAt (max a.scale b.scale) = d at hb'
  generalize max a.scale b.scale = s at ha hb'
  have hpos : (0 : ℚ) < 10 ^ (-s) := zpow_pos (by norm_num) _
  have hd : d ≠ 0 := by
    rintro rfl
    exact hne (by rw [hb', Int.cast_zero, zero_mul])
  refine ⟨?_, ?_, ?_⟩
  · have hdiv : (n : ℚ) = n.tdiv d * d + n.tmod d := by
      rw [mul_comm]
      exact_mod_cast (Int.mul_tdiv_add_tmod n d).symm
    rw [ha, hb', mul_div_mul_right _ _ hpos.ne', truncate_div n hd, toRat]
    nth_rewrite 1 [hdiv]
    ring
  · rw [hb', toRat, abs_mul, abs_mul]
    exact mul_lt_mul_of_pos_right (by exact_mod_cast abs_tmod_lt n hd) (abs_pos.mpr hpos.ne')
  · have hsign : SignType.sign a.toRat = SignType.sign n := by
      rw [ha]
      exact sign_toRat ⟨n, s⟩
    rw [sign_toRat, hsign, ← isZero_iff, isZero, beq_iff_eq]
    exact sign_tmod n d

/-- The remainder fails exactly for a divisor that is zero, and then for scales that are too
far apart.  Otherwise it is what the exact quotient, cut off toward zero, leaves of the
dividend: smaller than the divisor, and with the sign of the dividend.  It does not depend
on how the two numbers are written. -/
theorem rem_of_truncated_quotient (a b : Decimal) :
    (a.rem b = .error .moduloByZero ↔ b.toRat = 0) ∧
    (b.toRat ≠ 0 → (a.rem b = .error (.overflow "modulo") ↔ maxExponent < |a.scale - b.scale|)) ∧
    (b.toRat ≠ 0 → |a.scale - b.scale| ≤ maxExponent →
      ∃ r, a.rem b = .ok r ∧ a.toRat = truncate (a.toRat / b.toRat) * b.toRat + r.toRat ∧
        |r.toRat| < |b.toRat| ∧ (r.toRat = 0 ∨ SignType.sign r.toRat = SignType.sign a.toRat)) ∧
    ∀ a' b' : Decimal, |a.scale - b.scale| ≤ maxExponent → |a'.scale - b'.scale| ≤ maxExponent →
      a'.toRat = a.toRat → b'.toRat = b.toRat → (a'.rem b').map toRat = (a.rem b).map toRat := by
  have hzero : ∀ {b : Decimal}, b.toRat ≠ 0 → b.isZero = false := fun hb =>
    Bool.eq_false_iff.mpr fun h => hb (isZero_iff.mp h)
  refine ⟨⟨fun h => ?_, fun h => rem_of_isZero (isZero_iff.mpr h)⟩, fun hb => ⟨fun h => ?_, ?_⟩,
    fun hb hnear => ?_, fun a' b' hnear hnear' ha hb => ?_⟩
  · by_contra hb
    rcases le_or_gt |a.scale - b.scale| maxExponent with hnear | hfar
    · cases h.symm.trans (rem_of_near (hzero hb) hnear)
    · cases h.symm.trans (rem_of_far (hzero hb) hfar)
  · by_contra hnear
    cases h.symm.trans (rem_of_near (hzero hb) (not_lt.mp hnear))
  · exact rem_of_far (hzero hb)
  · exact ⟨_, rem_of_near (hzero hb) hnear, rem_spec (hzero hb) (rem_of_near (hzero hb) hnear)⟩
  · by_cases hb₀ : b.toRat = 0
    · rw [rem_of_isZero (isZero_iff.mpr hb₀), rem_of_isZero (isZero_iff.mpr (hb.trans hb₀))]
    · have hr := rem_of_near (hzero hb₀) hnear
      have hr' := rem_of_near (hzero (hb.trans_ne hb₀)) hnear'
      have hvalue := (rem_spec (hzero hb₀) hr).1
      have hvalue' := (rem_spec (hzero (hb.trans_ne hb₀)) hr').1
      rw [ha, hb] at hvalue'
      rw [hr, hr']
      exact congrArg Except.ok (add_left_cancel (hvalue'.symm.trans hvalue))

/-- The quotient `-1.99…9`, with 60 nines, is rounded to `-2`, but it leaves the remainder
that goes with `-1`. -/
theorem rem_of_quotient_next_to_integer :
    (⟨1, -60⟩ : Decimal).toRat ≠ 0 ∧ |(0 : ℤ) - -60| ≤ maxExponent ∧
      div ⟨1 - 2 * 10 ^ 60, 0⟩ ⟨1, -60⟩ = .ok ⟨-2 * 10 ^ 50, 50⟩ ∧
      rem ⟨1 - 2 * 10 ^ 60, 0⟩ ⟨1, -60⟩ = .ok ⟨1 - 10 ^ 60, 0⟩ ∧
      (⟨1 - 2 * 10 ^ 60, 0⟩ : Decimal).toRat =
        truncate ((⟨1 - 2 * 10 ^ 60, 0⟩ : Decimal).toRat / (⟨1, -60⟩ : Decimal).toRat) *
          (⟨1, -60⟩ : Decimal).toRat + (⟨1 - 10 ^ 60, 0⟩ : Decimal).toRat := by
  have hne : (⟨1, -60⟩ : Decimal).toRat ≠ 0 := by simp [toRat]
  have hnear : |(0 : ℤ) - -60| ≤ maxExponent := by decide
  obtain ⟨r, hr, hvalue, -⟩ :=
    (rem_of_truncated_quotient ⟨1 - 2 * 10 ^ 60, 0⟩ ⟨1, -60⟩).2.2.1 hne hnear
  have hrem : rem ⟨1 - 2 * 10 ^ 60, 0⟩ ⟨1, -60⟩ = .ok ⟨1 - 10 ^ 60, 0⟩ := by rfl
  obtain rfl := Except.ok.inj (hr.symm.trans hrem)
  exact ⟨hne, hnear, rfl, hrem, hvalue⟩

end LazyExpr.Decimal
