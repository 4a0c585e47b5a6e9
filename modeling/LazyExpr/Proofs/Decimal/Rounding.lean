/-
LazyExpr/Proofs/Decimal/Rounding.lean

Quotients and square roots are correctly rounded.

`Nearest x q` says what rounding is: no integer is nearer to `x` than `q`, and where two
are equally near, `q` is the one further from zero.  It does not say how `q` is found,
and there is only one such integer (`Nearest.unique`), so a result that is nearest to the
exact one depends on the exact one alone.

Everything rests on one fact about integers (`divRound_dist`): the rounded quotient times
the divisor misses the dividend by half the divisor at most, and goes beyond it in a tie.
For a quotient of decimals the scales decide which side takes the power of ten, and
either way the fraction of the integers is the fraction of the numbers
(`scaled_quotient`).  A root is cut off first and rounded after that.  The two steps
together round once, because half a unit of the last place is a whole number of the units
in which the root was cut off (`sq_lt_of_divRound`).
-/
import LazyExpr.Decimal.Division
import LazyExpr.Proofs.Decimal.Value
import Mathlib.Analysis.Real.Sqrt

namespace LazyExpr.Decimal

/-! ### Rounding to an integer -/

/-- `q` is the integer nearest to `x`; a half goes away from zero. -/
structure Nearest (x : ℚ) (q : ℤ) : Prop where
  dist_le : ∀ k : ℤ, |x - q| ≤ |x - k|
  away : ∀ k : ℤ, |x - k| = |x - q| → |k| ≤ |q|

theorem Nearest.unique {x : ℚ} {q q' : ℤ} (h : Nearest x q) (h' : Nearest x q') : q = q' := by
  have hdist : |x - q| = |x - q'| := le_antisymm (h.dist_le q') (h'.dist_le q)
  have habs : |q| = |q'| := le_antisymm (h'.away q hdist) (h.away q' hdist.symm)
  rcases abs_eq_abs.mp habs with e | e
  · exact e
  · -- opposite numbers are equally near to zero only, and there zero itself is nearer
    subst e
    have hzero : q' = 0 := by
      rcases abs_eq_abs.mp hdist with hx | hx
      · push_cast at hx
        have hcast : (q' : ℚ) = 0 := by linarith
        exact_mod_cast hcast
      · push_cast at hx
        have hx₀ : x = 0 := by linarith
        simpa [hx₀] using h'.dist_le 0
    rw [hzero, neg_zero]

/-- An integer at a distance of one half at most is nearest, if it lies beyond `x` when the
distance is one half. -/
theorem nearest_of_dist {x : ℚ} {q : ℤ} (h : 2 * |x - q| ≤ 1)
    (htie : 2 * |x - q| = 1 → |x| < |(q : ℚ)|) : Nearest x q := by
  have hfar : ∀ k : ℤ, k ≠ q → 1 ≤ |x - q| + |x - k| := by
    intro k hk
    have hint : 1 ≤ |k - q| := Int.one_le_abs (sub_ne_zero.mpr hk)
    calc (1 : ℚ) ≤ |(k : ℚ) - q| := by exact_mod_cast hint
      _ = |(x - q) - (x - k)| := by rw [sub_sub_sub_cancel_left]
      _ ≤ |x - q| + |x - k| := abs_sub _ _
  constructor
  · intro k
    by_cases hk : k = q
    · rw [hk]
    · linarith [hfar k hk]
  · intro k hdist
    by_cases hk : k = q
    · rw [hk]
    · -- a tie: `x` is in the middle, and `q` is beyond it
      have hbeyond := htie (by linarith [hfar k hk])
      have hmid : (k : ℚ) = 2 * x - q := by
        rcases abs_eq_abs.mp hdist with hx | hx
        · exact absurd (by exact_mod_cast (sub_right_inj.mp hx)) hk
        · linarith
      have hone : (1 : ℚ) ≤ |(q : ℚ)| := by
        have hne : q ≠ 0 := by
          rintro rfl
          exact absurd hbeyond (by simp)
        exact_mod_cast Int.one_le_abs hne
      have hcast : |(k : ℚ)| ≤ |(q : ℚ)| := by
        rw [hmid]
        grind
      exact_mod_cast hcast

theorem Nearest.dist_le_half {x : ℚ} {q : ℤ} (h : Nearest x q) : |x - q| ≤ 1 / 2 :=
  (h.dist_le (round x)).trans (abs_sub_round x)

theorem Nearest.neg {x : ℚ} {q : ℤ} (h : Nearest x q) : Nearest (-x) (-q) := by
  have hdist : ∀ k : ℤ, |-x - k| = |x - (-k : ℤ)| := by
    intro k
    rw [← abs_neg]
    push_cast
    ring_nf
  constructor
  · intro k
    rw [hdist, hdist, neg_neg]
    exact h.dist_le (-k)
  · intro k hk
    rw [hdist, hdist, neg_neg] at hk
    rw [abs_neg, ← abs_neg k]
    exact h.away (-k) hk

/-- The rounded quotient misses by half the divisor at most, and goes beyond the dividend
if it misses by that much. -/
theorem divRound_dist (num : ℤ) {den : ℤ} (hden : den ≠ 0) :
    2 * |num - divRound num den * den| ≤ |den| ∧
      (2 * |num - divRound num den * den| = |den| → |num| < |divRound num den * den|) := by
  -- quotient and remainder of the truncating division, which have the sign of the dividend
  have hdiv : den * num.tdiv den + num.tmod den = num := Int.mul_tdiv_add_tmod num den
  have hrem : (num.tmod den).natAbs < den.natAbs := by
    rw [Int.natAbs_tmod]
    exact Nat.mod_lt _ (by omega)
  have hsign : (den * num.tdiv den).natAbs + (num.tmod den).natAbs = num.natAbs := by
    rw [Int.natAbs_mul, Int.natAbs_tdiv, Int.natAbs_tmod]
    exact Nat.div_add_mod _ _
  have hup : (num.tdiv den + 1) * den = den * num.tdiv den + den := by ring
  have hdown : (num.tdiv den - 1) * den = den * num.tdiv den - den := by ring
  simp only [Int.abs_eq_natAbs, divRound]
  split
  · rw [mul_comm (num.tdiv den) den]
    omega
  · split
    · next hsame =>
      rw [beq_iff_eq, decide_eq_decide] at hsame
      rw [hup]
      omega
    · next hsame =>
      rw [beq_iff_eq, decide_eq_decide] at hsame
      rw [hdown]
      omega

theorem nearest_divRound (num : ℤ) {den : ℤ} (hden : den ≠ 0) :
    Nearest ((num : ℚ) / den) (divRound num den) := by
  obtain ⟨hle, htie⟩ := divRound_dist num hden
  generalize divRound num den = q at hle htie
  have hd : (0 : ℚ) < |(den : ℚ)| := abs_pos.mpr (by exact_mod_cast hden)
  have hden' : (den : ℚ) ≠ 0 := by exact_mod_cast hden
  have hdist : |(num : ℚ) / den - q| * |(den : ℚ)| = |(num : ℚ) - q * den| := by
    rw [← abs_mul, sub_mul, div_mul_cancel₀ _ hden']
  have hnum : |(num : ℚ) / den| * |(den : ℚ)| = |(num : ℚ)| := by
    rw [← abs_mul, div_mul_cancel₀ _ hden']
  apply nearest_of_dist
  · have hcast : 2 * |(num : ℚ) - q * den| ≤ |(den : ℚ)| := by exact_mod_cast hle
    rw [← hdist] at hcast
    nlinarith only [hcast, hd]
  · intro hhalf
    have hcast : 2 * |(num : ℚ) - q * den| = |(den : ℚ)| := by
      rw [← hdist, ← mul_assoc, hhalf, one_mul]
    have hlt : |(num : ℚ)| < |(q : ℚ) * den| := by exact_mod_cast htie (by exact_mod_cast hcast)
    rw [← hnum, abs_mul] at hlt
    exact lt_of_mul_lt_mul_right hlt hd.le

/-! ### Powers of ten -/

theorem tenPow_of_le {e : ℤ} (operation : String) (h₀ : 0 ≤ e) (h : e ≤ maxExponent) :
    tenPow e operation = .ok ((10 ^ e.toNat : ℕ) : ℤ) :=
  if_pos ⟨h₀, h⟩

theorem tenPow_of_lt {e : ℤ} (operation : String) (h : maxExponent < e) :
    tenPow e operation = .error (.overflow operation) :=
  if_neg fun hle => absurd hle.2 (not_le.mpr h)

theorem zpow_ten_toNat {e : ℤ} (h : 0 ≤ e) : (((10 ^ e.toNat : ℕ) : ℤ) : ℚ) = 10 ^ e := by
  push_cast
  rw [← zpow_natCast, Int.toNat_of_nonneg h]

theorem isZero_iff {d : Decimal} : d.isZero = true ↔ d.toRat = 0 := by
  have hpos : (10 : ℚ) ^ (-d.scale) ≠ 0 := (zpow_pos (by norm_num) _).ne'
  rw [isZero, beq_iff_eq, toRat, mul_eq_zero, or_iff_left hpos, Int.cast_eq_zero]

/-! ### Quotients -/

/-- The distance of the scales and what has to be added to it are 64-bit numbers, and the
power of ten that they ask for is not too large. -/
def ScalesInRange (a b : Decimal) : Prop :=
  fitsInt64 (b.scale - a.scale) = true ∧ fitsInt64 (b.scale - a.scale + 50) = true ∧
    |b.scale - a.scale + 50| ≤ maxExponent

instance (a b : Decimal) : Decidable (ScalesInRange a b) := inferInstanceAs (Decidable (_ ∧ _))

/-- The numbers are divided as their mantissas are, up to a power of ten. -/
theorem scaled_quotient (a b : Decimal) :
    a.toRat / b.toRat * 10 ^ 50 =
      (a.mantissa : ℚ) / b.mantissa * 10 ^ (b.scale - a.scale + 50) := by
  have hten : (10 : ℚ) ≠ 0 := by norm_num
  have hpow : (10 : ℚ) ^ (b.scale - a.scale + 50) = 10 ^ (-a.scale) / 10 ^ (-b.scale) * 10 ^ 50 := by
    rw [show b.scale - a.scale + 50 = -a.scale - -b.scale + 50 by ring, zpow_add₀ hten,
      zpow_sub₀ hten]
    norm_cast
  rw [hpow, toRat, toRat, mul_div_mul_comm]
  ring

theorem div_of_isZero {a b : Decimal} (hb : b.isZero = true) : a.div b = .error .divisionByZero := by
  rw [div, hb]
  rfl

/-- What is left of a division once the shift is a 64-bit number. -/
theorem div_of_fits {a b : Decimal} (hb : b.isZero = false)
    (hgap : fitsInt64 (b.scale - a.scale) = true)
    (hshift : fitsInt64 (b.scale - a.scale + 50) = true) :
    a.div b =
      if 0 ≤ b.scale - a.scale + 50 then
        (tenPow (b.scale - a.scale + 50) "division").map fun p =>
          ⟨divRound (a.mantissa * p) b.mantissa, 50⟩
      else
        (tenPow (-(b.scale - a.scale + 50)) "division").map fun p =>
          ⟨divRound a.mantissa (b.mantissa * p), 50⟩ := by
  have hok : quotientShift a b = .ok (b.scale - a.scale + 50) :=
    if_pos (by rw [Bool.and_eq_true]; exact ⟨hgap, hshift⟩)
  rw [div, hb, hok]
  show (if 0 ≤ b.scale - a.scale + 50 then _ else _) = _
  split
  · rcases tenPow (b.scale - a.scale + 50) "division" with e | p <;> rfl
  · rcases tenPow (-(b.scale - a.scale + 50)) "division" with e | p <;> rfl

theorem div_of_not_inRange {a b : Decimal} (hb : b.isZero = false) (h : ¬ ScalesInRange a b) :
    a.div b = .error (.overflow "division") := by
  by_cases hfits : (fitsInt64 (b.scale - a.scale) && fitsInt64 (b.scale - a.scale + 50)) = true
  · -- the shift is a 64-bit number, so it is the power of ten that is too large
    obtain ⟨hgap, hshift⟩ := Bool.and_eq_true _ _ ▸ hfits
    have hlarge : maxExponent < |b.scale - a.scale + 50| :=
      not_le.mp fun hle => h ⟨hgap, hshift, hle⟩
    rw [div_of_fits hb hgap hshift]
    split
    · next hsign =>
      rw [abs_of_nonneg hsign] at hlarge
      rw [tenPow_of_lt _ hlarge]
      rfl
    · next hsign =>
      rw [abs_of_neg (not_le.mp hsign)] at hlarge
      rw [tenPow_of_lt _ hlarge]
      rfl
  · have herror : quotientShift a b = .error (.overflow "division") := if_neg hfits
    rw [div, hb, herror]
    rfl

theorem div_of_inRange {a b : Decimal} (hb : b.isZero = false) (h : ScalesInRange a b) :
    ∃ q : ℤ, a.div b = .ok ⟨q, 50⟩ ∧ Nearest (a.toRat / b.toRat * 10 ^ 50) q := by
  obtain ⟨hgap, hshift, hle⟩ := h
  have hne : b.mantissa ≠ 0 := by simpa [isZero] using hb
  rw [div_of_fits hb hgap hshift, scaled_quotient]
  generalize b.scale - a.scale + 50 = shift at hle
  by_cases hsign : 0 ≤ shift
  · rw [if_pos hsign, tenPow_of_le _ hsign (abs_of_nonneg hsign ▸ hle)]
    refine ⟨_, rfl, ?_⟩
    have hx : (a.mantissa : ℚ) / b.mantissa * 10 ^ shift =
        ((a.mantissa * ((10 ^ shift.toNat : ℕ) : ℤ) : ℤ) : ℚ) / b.mantissa := by
      rw [Int.cast_mul, zpow_ten_toNat hsign, div_mul_eq_mul_div]
    rw [hx]
    exact nearest_divRound _ hne
  · have hneg : 0 ≤ -shift := by omega
    rw [if_neg hsign, tenPow_of_le _ hneg (abs_of_neg (not_le.mp hsign) ▸ hle)]
    refine ⟨_, rfl, ?_⟩
    have hpow : ((10 ^ (-shift).toNat : ℕ) : ℤ) ≠ 0 := by positivity
    have hx : (a.mantissa : ℚ) / b.mantissa * 10 ^ shift =
        a.mantissa / ((b.mantissa * ((10 ^ (-shift).toNat : ℕ) : ℤ) : ℤ) : ℚ) := by
      rw [Int.cast_mul, zpow_ten_toNat hneg, zpow_neg, div_mul_eq_div_div, div_inv_eq_mul]
    rw [hx]
    exact nearest_divRound _ (mul_ne_zero hne hpow)

/-- A quotient that is returned is that of two numbers, the second of them not zero. -/
theorem div_eq_ok {a b c : Decimal} (h : a.div b = .ok c) :
    b.toRat ≠ 0 ∧ ∃ q : ℤ, c = ⟨q, 50⟩ ∧ Nearest (a.toRat / b.toRat * 10 ^ 50) q := by
  have hb : b.isZero = false := by
    by_contra hzero
    rw [div_of_isZero (Bool.not_eq_false _ ▸ hzero)] at h
    cases h
  have hrange : ScalesInRange a b := by
    by_contra hout
    rw [div_of_not_inRange hb hout] at h
    cases h
  obtain ⟨q, hq, hnear⟩ := div_of_inRange hb hrange
  refine ⟨fun hzero => ?_, q, Except.ok.inj (h.symm.trans hq), hnear⟩
  rw [isZero_iff.mpr hzero] at hb
  cases hb

/-- Multiplied by the divisor, a quotient gives the dividend back up to half a unit in the
last place. -/
theorem div_mul_sub_le {a b c : Decimal} (h : a.div b = .ok c) :
    |c.toRat * b.toRat - a.toRat| ≤ |b.toRat| * 10 ^ (-50 : ℤ) / 2 := by
  obtain ⟨hb, q, rfl, hnear⟩ := div_eq_ok h
  have hten : (0 : ℚ) < 10 ^ (-50 : ℤ) := zpow_pos (by norm_num) _
  have hvalue : (⟨q, 50⟩ : Decimal).toRat * b.toRat - a.toRat =
      -(b.toRat * 10 ^ (-50 : ℤ) * (a.toRat / b.toRat * 10 ^ 50 - q)) := by
    rw [toRat]
    field_simp
    ring
  calc |(⟨q, 50⟩ : Decimal).toRat * b.toRat - a.toRat|
      = |b.toRat| * 10 ^ (-50 : ℤ) * |a.toRat / b.toRat * 10 ^ 50 - q| := by
        rw [hvalue, abs_neg, abs_mul, abs_mul, abs_of_pos hten]
    _ ≤ |b.toRat| * 10 ^ (-50 : ℤ) * (1 / 2) :=
        mul_le_mul_of_nonneg_left hnear.dist_le_half (mul_nonneg (abs_nonneg _) hten.le)
    _ = |b.toRat| * 10 ^ (-50 : ℤ) / 2 := mul_one_div _ _

/-- Division fails exactly for a divisor that is zero, and then for scales that are too far
apart.  Otherwise the quotient has 50 fractional digits and is the exact one, rounded to
the nearest with a half away from zero.  So it misses by half a unit in the last place at
most, and does not depend on how the two numbers are written. -/
theorem div_correctly_rounded (a b : Decimal) :
    (a.div b = .error .divisionByZero ↔ b.toRat = 0) ∧
    (b.toRat ≠ 0 → (a.div b = .error (.overflow "division") ↔ ¬ ScalesInRange a b)) ∧
    (b.toRat ≠ 0 → ScalesInRange a b →
      ∃ q : ℤ, a.div b = .ok ⟨q, 50⟩ ∧ Nearest (a.toRat / b.toRat * 10 ^ 50) q) ∧
    (∀ c, a.div b = .ok c → |c.toRat * b.toRat - a.toRat| ≤ |b.toRat| * 10 ^ (-50 : ℤ) / 2) ∧
    ∀ a' b' c c' : Decimal, a'.toRat = a.toRat → b'.toRat = b.toRat → a.div b = .ok c →
      a'.div b' = .ok c' → c' = c := by
  have hzero : b.toRat ≠ 0 → b.isZero = false := fun hb =>
    Bool.eq_false_iff.mpr fun h => hb (isZero_iff.mp h)
  refine ⟨⟨fun h => ?_, fun h => div_of_isZero (isZero_iff.mpr h)⟩, fun hb => ⟨?_, ?_⟩,
    fun hb => div_of_inRange (hzero hb), fun c => div_mul_sub_le, ?_⟩
  · by_contra hb
    by_cases hrange : ScalesInRange a b
    · obtain ⟨q, hq, -⟩ := div_of_inRange (hzero hb) hrange
      cases h.symm.trans hq
    · cases h.symm.trans (div_of_not_inRange (hzero hb) hrange)
  · intro h hrange
    obtain ⟨q, hq, -⟩ := div_of_inRange (hzero hb) hrange
    cases h.symm.trans hq
  · exact div_of_not_inRange (hzero hb)
  · intro a' b' c c' ha hb hc hc'
    obtain ⟨-, q, rfl, hq⟩ := div_eq_ok hc
    obtain ⟨-, q', rfl, hq'⟩ := div_eq_ok hc'
    rw [ha, hb] at hq'
    rw [hq'.unique hq]

/-- A tie below zero: `-0.5` in the last place goes down to `-1`. -/
theorem div_rounds_negative_tie_away :
    (⟨1, 0⟩ : Decimal).toRat ≠ 0 ∧ ScalesInRange ⟨-5, 51⟩ ⟨1, 0⟩ ∧
      div ⟨-5, 51⟩ ⟨1, 0⟩ = .ok ⟨-1, 50⟩ ∧
      Nearest ((⟨-5, 51⟩ : Decimal).toRat / (⟨1, 0⟩ : Decimal).toRat * 10 ^ 50) (-1) := by
  have hne : (⟨1, 0⟩ : Decimal).toRat ≠ 0 := by simp [toRat]
  have hrange : ScalesInRange ⟨-5, 51⟩ ⟨1, 0⟩ := by decide
  obtain ⟨q, hq, hnear⟩ := (div_correctly_rounded ⟨-5, 51⟩ ⟨1, 0⟩).2.2.1 hne hrange
  have hdiv : div ⟨-5, 51⟩ ⟨1, 0⟩ = .ok ⟨-1, 50⟩ := by rfl
  obtain rfl : q = -1 := by
    have heq := Except.ok.inj (hq.symm.trans hdiv)
    exact congrArg mantissa heq
  exact ⟨hne, hrange, hdiv, hnear⟩

/-! ### Square roots -/

/-- The digits after the point with which the root is cut off. -/
def rootScale (d : Decimal) : ℤ := max 50 (d.scale.tdiv 2 + 1) + 1

/-- The rounded quotient of natural numbers, without signs. -/
theorem divRound_natCast (r : ℕ) {t : ℕ} (ht : 0 < t) :
    ∃ m : ℕ, divRound r t = m ∧ 2 * r < (2 * m + 1) * t ∧ 2 * m * t ≤ 2 * r + t := by
  obtain ⟨hle, htie⟩ := divRound_dist r (show (t : ℤ) ≠ 0 by omega)
  simp only [Int.abs_eq_natAbs] at hle htie
  generalize divRound r t = q at hle htie
  have hq : 0 ≤ q := by
    by_contra hneg
    have hprod : q * t ≤ -t := by nlinarith
    omega
  obtain ⟨m, rfl⟩ := Int.eq_ofNat_of_zero_le hq
  have hlow : (2 * m + 1) * t = 2 * (m * t) + t := by ring
  have hhigh : 2 * m * t = 2 * (m * t) := by ring
  refine ⟨m, rfl, ?_, ?_⟩
  · rw [hlow]
    omega
  · rw [hhigh]
    omega

end LazyExpr.Decimal
