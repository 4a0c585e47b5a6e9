/-
LazyExpr/Proofs/Decimal/Tangent.lean

The fixed-point cosine is never zero, so every angle has a tangent.

The cosine changes its sign between two neighbouring fixed-point numbers: at `lastAcute` it
is one unit above zero, and at the next number one unit below.  So the sign of every cosine
is known, and that is what is proved (`cos_sign`).

Two arguments share the angles.  Far from `lastAcute` the error of the series does not
matter: the real cosine falls from zero to pi, so the one that is computed falls up to a
constant (`cos_le_cos_add`), and two angles whose cosines are far enough from zero settle all
that lie beyond them.  Near `lastAcute` the error is larger than the cosine, and the sign has
to be found exactly.  There the angles are cut into blocks, each half as long as its
distance from `lastAcute`, and in a block the cosine is enclosed by the terms at its two
ends, which grow with the angle (`cosAt_pos_of_mem`, `cosAt_neg_of_mem`).  Thirty blocks on
each side are enough, and they are tried one by one.
-/
import LazyExpr.Proofs.Decimal.Monotonicity
import LazyExpr.Proofs.Decimal.Trigonometry

namespace LazyExpr.Decimal

namespace FixedPoint

/-! ### The cosine by its terms -/

/-- The terms of the cosine that are subtracted and those that are added to one, at an angle
without its sign. -/
def cosSums (r : ℕ) : ℕ × ℕ :=
  termSums (r * r / powTen workingScale) (fun k => (2 * k - 1) * (2 * k)) termLimit
    (powTen workingScale) 1

/-- The cosine at an angle without its sign. -/
def cosAt (r : ℕ) : ℤ := unit + ((cosSums r).2 - (cosSums r).1)

theorem cosSums_mono {r s : ℕ} (h : r ≤ s) :
    (cosSums r).1 ≤ (cosSums s).1 ∧ (cosSums r).2 ≤ (cosSums s).2 :=
  termSums_mono (Nat.div_le_div_right (Nat.mul_self_le_mul_self h)) _ _ le_rfl 1

theorem cos_eq_cosAt (x : ℤ) : cos x = cosAt (reduceAngle x).natAbs := by
  have hsquare : mul (reduceAngle x) (reduceAngle x) =
      ((reduceAngle x).natAbs * (reduceAngle x).natAbs / powTen workingScale : ℕ) := by
    rw [mul, ← Int.natAbs_mul_self]
    rfl
  -- the subtraction is not cut off: the terms are numbered from one, and zero is multiplied by zero
  have hdivisor : (fun k : ℕ => (2 * (k : ℤ) - 1) * (2 * k)) =
      fun k : ℕ => (((2 * k - 1) * (2 * k) : ℕ) : ℤ) := by
    funext k
    cases k with
    | zero => rfl
    | succ k =>
      push_cast [Nat.cast_sub (show 1 ≤ 2 * (k + 1) by omega)]
      ring
  rw [cosAt, cosSums, cos, cosStep_eq, hsquare, hdivisor]
  exact congrArg (unit + ·) (sumTerms_ratioStep_of_neg _ _ _ _ _)

/-! ### Near a right angle -/

/-- The last angle that has a positive cosine. -/
def lastAcute : ℕ := 15707963267948966192313216916397514420985846996875529104874722961539083

/-- In a block of angles the cosine is enclosed by the terms at its ends. -/
theorem cosAt_pos_of_mem {a b r : ℕ} (ha : a ≤ r) (hb : r ≤ b)
    (h : (cosSums b).1 < powTen workingScale + (cosSums a).2) : 0 < cosAt r := by
  have hfirst := (cosSums_mono hb).1
  have hsecond := (cosSums_mono ha).2
  simp only [cosAt, unit, Int.ofNat_eq_natCast]
  omega

theorem cosAt_neg_of_mem {a b r : ℕ} (ha : a ≤ r) (hb : r ≤ b)
    (h : powTen workingScale + (cosSums b).2 < (cosSums a).1) : cosAt r < 0 := by
  have hfirst := (cosSums_mono ha).1
  have hsecond := (cosSums_mono hb).2
  simp only [cosAt, unit, Int.ofNat_eq_natCast]
  omega

/-- The distance that `n` blocks cover, if each is half as long as its own distance. -/
def reach : ℕ → ℕ
  | 0 => 0
  | n + 1 => reach n + reach n / 2 + 1

theorem of_blocks {P : ℕ → Prop} {n : ℕ}
    (h : ∀ i < n, ∀ d, reach i ≤ d → d ≤ reach i + reach i / 2 → P d) : ∀ d < reach n, P d := by
  induction n with
  | zero => exact fun d hd => absurd hd (Nat.not_lt_zero d)
  | succ n ih =>
    intro d hd
    rcases lt_or_ge d (reach n) with hlt | hge
    · exact ih (fun i hi => h i (by omega)) d hlt
    · exact h n n.lt_succ_self d hge (by rw [reach] at hd; omega)

/-- The cosine at `lastAcute`, and what thirty blocks on each side of it come to: the
enclosures settle the sign in all of them, and beyond the last one the cosine is larger than
any error. -/
theorem cosSums_blocks :
    cosAt lastAcute = 1 ∧
    (∀ n < 30, (cosSums (lastAcute - reach n)).1 <
      powTen workingScale + (cosSums (lastAcute - (reach n + reach n / 2))).2) ∧
    (∀ n < 30, powTen workingScale + (cosSums (lastAcute + 1 + (reach n + reach n / 2))).2 <
      (cosSums (lastAcute + 1 + reach n)).1) ∧
    161800 < cosAt (lastAcute - reach 30) ∧ cosAt (lastAcute + 1 + reach 30) < -161800 ∧
    ((lastAcute + 1 + reach 30 : ℕ) : ℤ) < pi := by
  decide +kernel

theorem cosAt_pos_near : ∀ d < reach 30, 0 < cosAt (lastAcute - d) := by
  obtain ⟨-, hblocks, -⟩ := cosSums_blocks
  apply of_blocks
  intro n hn d hlow hhigh
  exact cosAt_pos_of_mem (by omega) (by omega) (hblocks n hn)

theorem cosAt_neg_near : ∀ d < reach 30, cosAt (lastAcute + 1 + d) < 0 := by
  obtain ⟨-, -, hblocks, -⟩ := cosSums_blocks
  apply of_blocks
  intro n hn d hlow hhigh
  exact cosAt_neg_of_mem (by omega) (by omega) (hblocks n hn)

/-! ### Far from a right angle -/

theorem abs_reduceAngle_le_pi (x : ℤ) : |reduceAngle x| ≤ pi := by
  obtain ⟨-, -, hlow, hhigh⟩ := reduceAngle_spec x
  exact abs_le.mpr ⟨hlow, hhigh.le⟩

/-- The cosine that is computed falls from zero to pi, up to the errors of the series and of
pi. -/
theorem cos_le_cos_add {x y : ℤ} (h : (reduceAngle x).natAbs ≤ (reduceAngle y).natAbs) :
    cos y ≤ cos x + 161800 := by
  have hu := unit_pos
  have hx := (abs_le.mp (cos_approx x)).1
  have hy := (abs_le.mp (cos_approx y)).2
  have hle : |(reduceAngle x / unit : ℝ)| ≤ |(reduceAngle y / unit : ℝ)| := by
    have hint : |reduceAngle x| ≤ |reduceAngle y| := by
      rw [Int.abs_eq_natAbs, Int.abs_eq_natAbs]
      exact_mod_cast h
    rw [abs_div, abs_div]
    exact div_le_div_of_nonneg_right (by exact_mod_cast hint) (abs_nonneg _)
  have hpi : unit * (|(reduceAngle y / unit : ℝ)| - Real.pi) ≤ 61800 := by
    have hangle : |(reduceAngle y : ℝ)| ≤ pi := by exact_mod_cast abs_reduceAngle_le_pi y
    have hnear := (abs_le.mp pi_approx).2
    rw [abs_div, abs_of_pos hu, mul_sub, mul_div_cancel₀ _ hu.ne']
    linarith
  have hfall : unit * Real.cos (reduceAngle y / unit) ≤
      unit * Real.cos (reduceAngle x / unit) + 61800 := by
    rw [← Real.cos_abs (reduceAngle y / unit), ← Real.cos_abs (reduceAngle x / unit)]
    generalize |(reduceAngle y / unit : ℝ)| = η at *
    generalize hρ : |(reduceAngle x / unit : ℝ)| = ρ at *
    have hρ₀ : 0 ≤ ρ := hρ ▸ abs_nonneg _
    rcases le_or_gt η Real.pi with hη | hη
    · have hcos := Real.cos_le_cos_of_nonneg_of_le_pi hρ₀ hη hle
      nlinarith
    · -- the number for pi may be too large, but no cosine is below that of pi
      have hend := (abs_le.mp (Real.abs_cos_sub_cos_le η Real.pi)).2
      rw [Real.cos_pi, abs_of_pos (sub_pos.mpr hη)] at hend
      nlinarith [Real.neg_one_le_cos ρ]
  have hreal : (cos y : ℝ) ≤ cos x + 161800 := by linarith
  exact_mod_cast hreal

/-! ### The sign of the cosine -/

theorem cos_natCast {r : ℕ} (h : (r : ℤ) < pi) : reduceAngle r = r ∧ cos r = cosAt r := by
  have hangle : reduceAngle r = r := by
    have hpi := pi_pos
    simpa using reduceAngle_eq (r := r) (by omega) h 0
  rw [cos_eq_cosAt, hangle, Int.natAbs_natCast]
  exact ⟨rfl, rfl⟩

/-- The cosine is positive up to `lastAcute` and negative from there on. -/
theorem cos_sign (x : ℤ) :
    ((reduceAngle x).natAbs ≤ lastAcute → 0 < cos x) ∧
      (lastAcute < (reduceAngle x).natAbs → cos x < 0) := by
  obtain ⟨-, -, -, hpositive, hnegative, hpi⟩ := cosSums_blocks
  constructor
  · intro hacute
    rcases lt_or_ge (lastAcute - (reduceAngle x).natAbs) (reach 30) with hnear | hfar
    · have hpos := cosAt_pos_near _ hnear
      rwa [Nat.sub_sub_self hacute, ← cos_eq_cosAt] at hpos
    · -- the angle is smaller than all those of the blocks, and the last of them has a large cosine
      obtain ⟨hangle, hcos⟩ := cos_natCast (r := lastAcute - reach 30) (by omega)
      have hle := cos_le_cos_add (x := x) (y := (lastAcute - reach 30 : ℕ)) (by
        rw [hangle]
        omega)
      omega
  · intro hobtuse
    rcases lt_or_ge ((reduceAngle x).natAbs - (lastAcute + 1)) (reach 30) with hnear | hfar
    · have hneg := cosAt_neg_near _ hnear
      rwa [Nat.add_sub_cancel' hobtuse, ← cos_eq_cosAt] at hneg
    · obtain ⟨hangle, hcos⟩ := cos_natCast hpi
      have hle := cos_le_cos_add (x := (lastAcute + 1 + reach 30 : ℕ)) (y := x) (by
        rw [hangle]
        omega)
      omega

theorem cos_ne_zero (x : ℤ) : cos x ≠ 0 := by
  obtain ⟨hacute, hobtuse⟩ := cos_sign x
  rcases le_or_gt (reduceAngle x).natAbs lastAcute with h | h
  · exact (hacute h).ne'
  · exact (hobtuse h).ne

end FixedPoint

/-! ### Tangents -/

theorem tan_eq_ok {d : Decimal} {x : ℤ} (hx : FixedPoint.ofDecimal d = .ok x) :
    d.tan = .ok (FixedPoint.toDecimal (FixedPoint.div (FixedPoint.sin x) (FixedPoint.cos x))) := by
  rw [tan, hx]
  exact if_neg (FixedPoint.cos_ne_zero x)

/-- An angle that has a cosine has a tangent, and no tangent is undefined: the number by which
the sine is divided is not zero. -/
theorem tan_never_undefined (d : Decimal) :
    (∀ c, d.cos = .ok c → ∃ x, FixedPoint.ofDecimal d = .ok x ∧ FixedPoint.cos x ≠ 0 ∧
      d.tan = .ok (FixedPoint.toDecimal (FixedPoint.div (FixedPoint.sin x) (FixedPoint.cos x)))) ∧
    ∀ operation reason, d.tan ≠ .error (.undefined operation reason) := by
  rcases FixedPoint.ofDecimal_cases d with ⟨x, hx⟩ | hx
  · refine ⟨fun c _ => ⟨x, hx, FixedPoint.cos_ne_zero x, tan_eq_ok hx⟩, fun operation reason => ?_⟩
    rw [tan_eq_ok hx]
    intro h
    cases h
  · refine ⟨fun c hc => ?_, fun operation reason => ?_⟩
    · rw [cos, hx] at hc
      cases hc
    · rw [tan, hx]
      intro h
      cases h

/-- Next to a right angle the cosine is rounded to zero, and the tangent is still a number. -/
theorem tan_never_undefined_next_to_right_angle :
    cos ⟨FixedPoint.lastAcute, 70⟩ = .ok ⟨0, 50⟩ ∧ ∃ t, tan ⟨FixedPoint.lastAcute, 70⟩ = .ok t := by
  have hconversion : FixedPoint.ofDecimal ⟨FixedPoint.lastAcute, 70⟩ = .ok FixedPoint.lastAcute := rfl
  have hcos : cos ⟨FixedPoint.lastAcute, 70⟩ = .ok ⟨0, 50⟩ := by
    obtain ⟨hone, -, -, -, -, hbeyond⟩ := FixedPoint.cosSums_blocks
    have hpi : (FixedPoint.lastAcute : ℤ) < FixedPoint.pi := by omega
    rw [cos, hconversion]
    show Except.ok (FixedPoint.toDecimal (FixedPoint.cos FixedPoint.lastAcute)) = _
    rw [(FixedPoint.cos_natCast hpi).2, hone]
    rfl
  obtain ⟨x, -, -, htan⟩ := (tan_never_undefined _).1 _ hcos
  exact ⟨hcos, _, htan⟩

end LazyExpr.Decimal
