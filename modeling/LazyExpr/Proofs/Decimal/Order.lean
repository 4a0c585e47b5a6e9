/-
LazyExpr/Proofs/Decimal/Order.lean

The order of decimals is the order of the numbers that they stand for.

A comparison looks at the signs first, then at the positions of the leading digits, and
brings the mantissas to a common scale only if these do not decide.  The position of the
leading digit bounds a number from both sides (`abs_toRat_lt`, `le_abs_toRat`), so a
difference in the positions is one in the numbers; at a common scale the mantissas are in
proportion to the numbers.
-/
import LazyExpr.Proofs.Decimal.Value
import Mathlib.Data.Nat.Digits.Lemmas

namespace LazyExpr.Decimal

/-! ### Digits -/

theorem lt_ten_pow_digitCount (n : ℕ) : n < 10 ^ digitCount n :=
  (Nat.length_toDigits_le_iff (by norm_num) Nat.length_toDigits_pos).mp le_rfl

theorem ten_pow_le_of_digitCount {n : ℕ} (hn : 0 < n) : 10 ^ (digitCount n - 1) ≤ n := by
  rcases Nat.eq_zero_or_pos (digitCount n - 1) with h | h
  · rw [h]
    exact hn
  · by_contra hlt
    have hle := (Nat.length_toDigits_le_iff (by norm_num) h).mpr (not_le.mp hlt)
    have hpos : 0 < digitCount n := Nat.length_toDigits_pos
    simp only [digitCount] at *
    omega

/-- The position of the leading digit: the number is at least a tenth of this power of ten
and less than it. -/
def position (d : Decimal) : ℤ := digitCount d.mantissa.natAbs - d.scale

theorem abs_toRat_eq (d : Decimal) : |d.toRat| = d.mantissa.natAbs * (10 : ℚ) ^ (-d.scale) := by
  have hpos : (0 : ℚ) < 10 ^ (-d.scale) := zpow_pos (by norm_num) _
  rw [toRat, abs_mul, abs_of_pos hpos, Nat.cast_natAbs, Int.cast_abs]

theorem abs_toRat_lt (d : Decimal) : |d.toRat| < (10 : ℚ) ^ d.position := by
  have hpos : (0 : ℚ) < 10 ^ (-d.scale) := zpow_pos (by norm_num) _
  have hdigits : (d.mantissa.natAbs : ℚ) < 10 ^ digitCount d.mantissa.natAbs := by
    exact_mod_cast lt_ten_pow_digitCount d.mantissa.natAbs
  rw [abs_toRat_eq, position, sub_eq_add_neg, zpow_add₀ (by norm_num), zpow_natCast]
  exact mul_lt_mul_of_pos_right hdigits hpos

theorem le_abs_toRat {d : Decimal} (hd : d.mantissa ≠ 0) :
    (10 : ℚ) ^ (d.position - 1) ≤ |d.toRat| := by
  have hpos : (0 : ℚ) < 10 ^ (-d.scale) := zpow_pos (by norm_num) _
  have hcount : 0 < digitCount d.mantissa.natAbs := Nat.length_toDigits_pos
  have hdigits : (10 : ℚ) ^ (digitCount d.mantissa.natAbs - 1) ≤ d.mantissa.natAbs := by
    exact_mod_cast ten_pow_le_of_digitCount (Int.natAbs_pos.2 hd)
  have hexponent : d.position - 1 = ((digitCount d.mantissa.natAbs - 1 : ℕ) : ℤ) + -d.scale := by
    rw [position]
    omega
  rw [abs_toRat_eq, hexponent, zpow_add₀ (by norm_num), zpow_natCast]
  exact mul_le_mul_of_nonneg_right hdigits hpos.le

/-! ### Comparisons -/

/-- What has its leading digit further to the left is larger. -/
theorem abs_toRat_lt_of_position_lt {a b : Decimal} (hb : b.mantissa ≠ 0)
    (h : a.position < b.position) : |a.toRat| < |b.toRat| :=
  calc |a.toRat| < (10 : ℚ) ^ a.position := abs_toRat_lt a
    _ ≤ 10 ^ (b.position - 1) := zpow_le_zpow_right₀ (by norm_num) (by omega)
    _ ≤ |b.toRat| := le_abs_toRat hb

theorem compare_natAbs_mantissaAt {a b : Decimal} {s : ℤ} (ha : a.scale ≤ s) (hb : b.scale ≤ s) :
    compare (a.mantissaAt s).natAbs (b.mantissaAt s).natAbs = compare |a.toRat| |b.toRat| := by
  have hpos : (0 : ℚ) < 10 ^ (-s) := zpow_pos (by norm_num) _
  have habs : ∀ {d : Decimal}, d.scale ≤ s → |d.toRat| = (d.mantissaAt s).natAbs * 10 ^ (-s) := by
    intro d hd
    rw [toRat_eq_mantissaAt hd, abs_mul, abs_of_pos hpos, Nat.cast_natAbs, Int.cast_abs]
  rw [habs ha, habs hb]
  rcases lt_trichotomy (a.mantissaAt s).natAbs (b.mantissaAt s).natAbs with h | h | h
  · rw [compare_lt_iff_lt.2 h, eq_comm, compare_lt_iff_lt]
    exact mul_lt_mul_of_pos_right (by exact_mod_cast h) hpos
  · rw [h, compare_eq_iff_eq.2 rfl, compare_eq_iff_eq.2 rfl]
  · rw [compare_gt_iff_gt.2 h, eq_comm, compare_gt_iff_gt]
    exact mul_lt_mul_of_pos_right (by exact_mod_cast h) hpos

theorem compareMagnitude_eq {a b : Decimal} (ha : a.mantissa ≠ 0) (hb : b.mantissa ≠ 0) :
    a.compareMagnitude b = compare |a.toRat| |b.toRat| := by
  show (compare a.position b.position).then _ = _
  rcases lt_trichotomy a.position b.position with h | h | h
  · rw [compare_lt_iff_lt.2 h, compare_lt_iff_lt.2 (abs_toRat_lt_of_position_lt hb h)]
    rfl
  · rw [compare_eq_iff_eq.2 h]
    exact compare_natAbs_mantissaAt (le_max_left _ _) (le_max_right _ _)
  · rw [compare_gt_iff_gt.2 h, compare_gt_iff_gt.2 (abs_toRat_lt_of_position_lt ha h)]
    rfl

theorem toRat_pos_iff {d : Decimal} : 0 < d.toRat ↔ 0 < d.mantissa := by
  rw [toRat, mul_pos_iff_of_pos_right (zpow_pos (by norm_num) _), Int.cast_pos]

theorem toRat_neg_iff {d : Decimal} : d.toRat < 0 ↔ d.mantissa < 0 := by
  rw [← isNegative_iff, isNegative, decide_eq_true_iff]

theorem toRat_lt_of_sign_lt {a b : Decimal} (h : a.mantissa.sign < b.mantissa.sign) :
    a.toRat < b.toRat := by
  by_cases hb : 0 < b.mantissa
  · have ha : ¬ 0 < a.mantissa := by
      intro ha
      rw [Int.sign_eq_one_of_pos ha, Int.sign_eq_one_of_pos hb] at h
      exact absurd h (lt_irrefl _)
    exact lt_of_le_of_lt (not_lt.1 fun h => ha (toRat_pos_iff.1 h)) (toRat_pos_iff.2 hb)
  · have ha : a.mantissa < 0 := by
      have hsign := Int.sign_nonpos_iff.2 (not_lt.1 hb)
      exact Int.sign_neg_iff.1 (lt_of_lt_of_le h hsign)
    have hb' : ¬ b.mantissa < 0 := by
      intro hb'
      rw [Int.sign_eq_neg_one_of_neg ha, Int.sign_eq_neg_one_of_neg hb'] at h
      exact absurd h (lt_irrefl _)
    exact lt_of_lt_of_le (toRat_neg_iff.2 ha) (not_lt.1 fun h => hb' (toRat_neg_iff.1 h))

theorem compare_neg_neg (x y : ℚ) : compare (-y) (-x) = compare x y := by
  rcases lt_trichotomy x y with h | h | h
  · rw [compare_lt_iff_lt.2 h, compare_lt_iff_lt.2 (neg_lt_neg h)]
  · rw [h, compare_eq_iff_eq.2 rfl, compare_eq_iff_eq.2 rfl]
  · rw [compare_gt_iff_gt.2 h, compare_gt_iff_gt.2 (neg_lt_neg h)]

/-- Decimals are compared as the numbers that they stand for. -/
theorem compareValue_eq (a b : Decimal) : a.compareValue b = compare a.toRat b.toRat := by
  unfold compareValue
  rcases lt_trichotomy a.mantissa.sign b.mantissa.sign with h | h | h
  · rw [compare_lt_iff_lt.2 h, compare_lt_iff_lt.2 (toRat_lt_of_sign_lt h)]
    rfl
  · rw [compare_eq_iff_eq.2 h, Ordering.eq_then]
    rcases lt_trichotomy a.mantissa 0 with ha | ha | ha
    · -- of two negative numbers, the one of larger magnitude is smaller
      rw [Int.sign_eq_neg_one_of_neg ha, eq_comm, Int.sign_eq_neg_one_iff_neg] at h
      rw [if_neg (by simp [isZero, ha.ne]), if_pos (by simp [isNegative, ha]),
        compareMagnitude_eq h.ne ha.ne, abs_of_neg (toRat_neg_iff.2 ha),
        abs_of_neg (toRat_neg_iff.2 h), compare_neg_neg]
    · rw [ha, Int.sign_zero, eq_comm, Int.sign_eq_zero_iff_zero] at h
      rw [if_pos (by simp [isZero, ha]), toRat, toRat, ha, h, Int.cast_zero, zero_mul, zero_mul,
        compare_eq_iff_eq.2 rfl]
    · rw [Int.sign_eq_one_of_pos ha, eq_comm, Int.sign_eq_one_iff_pos] at h
      rw [if_neg (by simp [isZero, ha.ne']), if_neg (by simp [isNegative, ha.le]),
        compareMagnitude_eq ha.ne' h.ne', abs_of_pos (toRat_pos_iff.2 ha),
        abs_of_pos (toRat_pos_iff.2 h)]
  · rw [compare_gt_iff_gt.2 h, compare_gt_iff_gt.2 (toRat_lt_of_sign_lt h)]
    rfl

theorem sameValue_iff {a b : Decimal} : a.sameValue b = true ↔ a.toRat = b.toRat := by
  rw [sameValue, beq_iff_eq, compareValue_eq, compare_eq_iff_eq]

theorem atMost_iff {a b : Decimal} : a.atMost b = true ↔ a.toRat ≤ b.toRat := by
  rw [atMost, bne_iff_ne, compareValue_eq, Ne, compare_gt_iff_gt, not_lt]

end LazyExpr.Decimal
