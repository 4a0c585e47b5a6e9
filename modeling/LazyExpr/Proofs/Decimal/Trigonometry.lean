/-
LazyExpr/Proofs/Decimal/Trigonometry.lean

Sine and cosine are right up to one unit of the last place, as long as the angle is of
ordinary size, and on the unit circle whatever its size.

Three errors come together.  The series of sine and cosine, at the angle that is left after
whole turns have been taken off, are good for 50000 units of the last place of a fixed-point
number (`sin_approx`, `cos_approx`); this holds for every angle, however large.  The
fixed-point number for pi is off by 61800 units at most (`pi_approx`), and each turn that is
taken off brings this error in twice (`reduceAngle_near`).  So the number of turns, and
nothing else, limits the size of the angle: up to `10 ^ 12` all errors together stay far
below the `10 ^ 20` units that make one unit of the result.

Beyond that sine and cosine are those of another angle, but of the same one.  So they lie on
the unit circle up to the last place for every angle (`sin_sq_add_cos_sq_near_one`).
-/
import LazyExpr.Decimal.Function
import LazyExpr.Proofs.Decimal.Series
import Mathlib.Analysis.Real.Pi.Bounds
import Mathlib.Analysis.SpecialFunctions.Complex.Arctan
import Mathlib.Analysis.SpecialFunctions.Trigonometric.Bounds
import Mathlib.Analysis.SpecialFunctions.Trigonometric.Series

namespace LazyExpr.Decimal

namespace FixedPoint

/-! ### Pi -/

theorem isOddStep_atanInverse (n : ℕ) :
    IsOddStep (atanInverseStep n) fun x => (-1) * x.tdiv (n * n) := by
  apply IsOddStep.of_test (P := fun s => s.power = 0)
  · intro s
    rw [neg_one_mul]
    rfl
  · intro s hzero
    rw [hzero, Int.zero_tdiv]

theorem atanInverse_approx {n : ℕ} (hn : 2 ≤ n) :
    Approx (atanInverse n) (Real.arctan (n : ℝ)⁻¹) 3090 := by
  have hinv : ‖(n : ℝ)⁻¹‖ < 1 := by
    have hn' : (1 : ℝ) < n := by exact_mod_cast hn
    rw [Real.norm_of_nonneg (by positivity)]
    exact inv_lt_one_of_one_lt₀ hn'
  apply (isOddStep_atanInverse n).inverse_approx hn rfl
  simpa using Real.hasSum_arctan hinv

/-- Machin's formula multiplies the two errors by 16 and by 4. -/
theorem pi_approx : Approx pi Real.pi 61800 := by
  have hmachin : Real.pi = (16 : ℤ) * Real.arctan (5 : ℕ)⁻¹ - (4 : ℤ) * Real.arctan (239 : ℕ)⁻¹ := by
    have h := Real.four_mul_arctan_inv_5_sub_arctan_inv_239
    push_cast
    linarith
  have h5 := (atanInverse_approx (n := 5) (by norm_num)).intMul 16
  have h239 := (atanInverse_approx (n := 239) (by norm_num)).intMul 4
  rw [hmachin]
  exact (h5.sub h239).mono (by norm_num)

theorem pi_bounds : 3 * (unit : ℝ) < pi ∧ (pi : ℝ) < 3.15 * unit := by
  obtain ⟨hlow, hhigh⟩ := abs_le.mp pi_approx
  have hbig := unit_ge
  have hge := mul_lt_mul_of_pos_left Real.pi_gt_d2 unit_pos
  have hle := mul_lt_mul_of_pos_left Real.pi_lt_d4 unit_pos
  constructor <;> linarith

/-! ### Whole turns -/

theorem pi_pos : 0 < pi := by
  have h := (mul_pos three_pos unit_pos).trans pi_bounds.1
  exact_mod_cast h

/-- Some number of turns is taken off, and less than half a turn is left. -/
theorem reduceAngle_spec (x : ℤ) :
    ∃ k : ℤ, reduceAngle x = x - k * (2 * pi) ∧ -pi ≤ reduceAngle x ∧ reduceAngle x < pi := by
  have hpi := pi_pos
  refine ⟨(x + pi).fdiv (2 * pi), rfl, ?_⟩
  have hdiv : (x + pi).fdiv (2 * pi) * (2 * pi) = x + pi - (x + pi) % (2 * pi) := by
    rw [Int.fdiv_eq_ediv_of_nonneg _ (by omega)]
    linarith [Int.mul_ediv_add_emod (x + pi) (2 * pi), mul_comm ((x + pi) / (2 * pi)) (2 * pi)]
  have hlow := Int.emod_nonneg (x + pi) (show 2 * pi ≠ 0 by omega)
  have hhigh := Int.emod_lt_of_pos (x + pi) (show 0 < 2 * pi by omega)
  simp only [reduceAngle, hdiv]
  omega

/-- Nothing else can be left. -/
theorem reduceAngle_eq {r : ℤ} (hlow : -pi ≤ r) (hhigh : r < pi) (k : ℤ) :
    reduceAngle (r + k * (2 * pi)) = r := by
  have hpi := pi_pos
  have hturns : (r + k * (2 * pi) + pi).fdiv (2 * pi) = k := by
    rw [Int.fdiv_eq_ediv_of_nonneg _ (by omega), add_right_comm,
      Int.add_mul_ediv_right _ _ (by omega), Int.ediv_eq_zero_of_lt (by omega) (by omega), zero_add]
  simp only [reduceAngle, hturns, add_sub_cancel_right]

/-- The real angle that is left. -/
theorem abs_reduceAngle_div_le (x : ℤ) : |(reduceAngle x : ℝ) / unit| ≤ 3.15 := by
  obtain ⟨-, -, hlow, hhigh⟩ := reduceAngle_spec x
  have hlow' : -(pi : ℝ) ≤ reduceAngle x := by exact_mod_cast hlow
  have hhigh' : (reduceAngle x : ℝ) ≤ pi := by exact_mod_cast hhigh.le
  rw [abs_div_unit_le_iff, mul_comm]
  exact (abs_le.mpr ⟨hlow', hhigh'⟩).trans pi_bounds.2.le

/-! ### The series of sine and cosine -/

/-- A factor with the opposite sign turns every term into its opposite. -/
theorem ratioStep_neg (x : ℤ) (c : ℕ → ℤ) (s : Term) :
    ratioStep (-x) c s =
      if (mul s.value x).tdiv (c s.k) = 0 then none
      else some (-((mul s.value x).tdiv (c s.k)), ⟨-((mul s.value x).tdiv (c s.k)), s.k + 1⟩) := by
  have hterm : (mul s.value (-x)).tdiv (c s.k) = -((mul s.value x).tdiv (c s.k)) := by
    simp [mul]
  simp only [ratioStep, hterm, neg_eq_zero]

theorem sinStep_eq (rr : ℤ) : sinStep rr = ratioStep (-rr) fun k => (2 * k) * (2 * k + 1) := by
  funext s
  rw [ratioStep_neg]
  rfl

theorem cosStep_eq (rr : ℤ) : cosStep rr = ratioStep (-rr) fun k => (2 * k - 1) * (2 * k) := by
  funext s
  rw [ratioStep_neg]
  rfl

theorem sq_le_ten {ρ : ℝ} (hρ : |ρ| ≤ 3.15) : ρ ^ 2 ≤ 10 := by
  rw [← sq_abs]
  nlinarith [abs_nonneg ρ]

theorem sin_series {ρ : ℝ} (hρ : |ρ| ≤ 3.15) :
    RatioSeries (-ρ ^ 2) 10 (fun k => (2 * k) * (2 * k + 1))
      fun n => (-1) ^ n * ρ ^ (2 * n + 1) / (2 * n + 1).factorial where
  divisor_pos n := by positivity
  next n := by
    have hfact : (2 * (n + 1) + 1).factorial = (2 * n + 3) * ((2 * n + 2) * (2 * n + 1).factorial) :=
      rfl
    rw [hfact]
    push_cast
    field_simp
    ring
  factor_le := by
    rw [abs_neg, abs_of_nonneg (sq_nonneg ρ)]
    exact sq_le_ten hρ
  divisor_ge n := by
    push_cast
    nlinarith [(n.cast_nonneg : (0 : ℝ) ≤ n)]
  zeroth_le := by
    simp
    linarith
  first_le := by
    have hterm : (-1) ^ 1 * ρ ^ (2 * 1 + 1) / ((2 * 1 + 1).factorial : ℝ) = -(ρ ^ 2 * ρ / 6) := by
      norm_num [Nat.factorial]
      ring
    have hsix : |(6 : ℝ)| = 6 := abs_of_pos (by norm_num)
    rw [hterm, abs_neg, abs_div, abs_mul, abs_of_nonneg (sq_nonneg ρ), hsix]
    have hcube : ρ ^ 2 * |ρ| ≤ 10 * 3.15 :=
      mul_le_mul (sq_le_ten hρ) hρ (abs_nonneg ρ) (by norm_num)
    linarith

theorem cos_series {ρ : ℝ} (hρ : |ρ| ≤ 3.15) :
    RatioSeries (-ρ ^ 2) 10 (fun k => (2 * k - 1) * (2 * k))
      fun n => (-1) ^ n * ρ ^ (2 * n) / (2 * n).factorial where
  divisor_pos n := by
    push_cast
    nlinarith [(n.cast_nonneg : (0 : ℤ) ≤ n)]
  next n := by
    have hfact : (2 * (n + 1)).factorial = (2 * n + 2) * ((2 * n + 1) * (2 * n).factorial) := rfl
    have hdiv : (((2 * ((n + 1 : ℕ) : ℤ) - 1) * (2 * ((n + 1 : ℕ) : ℤ)) : ℤ) : ℝ) =
        (2 * n + 2) * (2 * n + 1) := by
      push_cast
      ring
    rw [hfact, hdiv]
    push_cast
    field_simp
    ring
  factor_le := by
    rw [abs_neg, abs_of_nonneg (sq_nonneg ρ)]
    exact sq_le_ten hρ
  divisor_ge n := by
    push_cast
    nlinarith [(n.cast_nonneg : (0 : ℝ) ≤ n)]
  zeroth_le := by norm_num
  first_le := by
    have hterm : (-1) ^ 1 * ρ ^ (2 * 1) / ((2 * 1).factorial : ℝ) = -(ρ ^ 2 / 2) := by
      norm_num [Nat.factorial]
      ring
    rw [hterm, abs_neg, abs_of_nonneg (by positivity)]
    linarith [sq_le_ten hρ]

/-- The square of the angle that is left, as the factor of the two series. -/
theorem square_approx (x : ℤ) :
    Approx (-(mul (reduceAngle x) (reduceAngle x))) (-(reduceAngle x / unit : ℝ) ^ 2) 1 ∧
      |((-(mul (reduceAngle x) (reduceAngle x)) : ℤ) : ℝ)| ≤ unit * 10 := by
  have hρ := abs_reduceAngle_div_le x
  have hself := approx_self (reduceAngle x)
  generalize hr : reduceAngle x = r at *
  have hle := abs_div_unit_le_iff.mp hρ
  have hsq : Approx (-(mul r r)) (-(r / unit : ℝ) ^ 2) 1 := by
    have hmul := (hself.mul hself hρ hle).neg
    rw [← sq] at hmul
    exact hmul.mono (by norm_num)
  refine ⟨hsq, hsq.abs_le.trans ?_⟩
  have hbig := unit_ge
  have hsmall : (r / unit : ℝ) ^ 2 ≤ 3.15 ^ 2 := sq_le_sq' (by linarith [abs_le.mp hρ]) (abs_le.mp hρ).2
  rw [abs_neg, abs_of_nonneg (sq_nonneg _)]
  nlinarith

/-- The sine is that of the angle which is left, for every angle. -/
theorem sin_approx (x : ℤ) : Approx (sin x) (Real.sin (reduceAngle x / unit)) 50000 := by
  obtain ⟨hsq, hle⟩ := square_approx x
  have hseries := sin_series (abs_reduceAngle_div_le x)
  have hfirst : Approx (reduceAngle x)
      ((-1) ^ 0 * (reduceAngle x / unit : ℝ) ^ (2 * 0 + 1) / (2 * 0 + 1).factorial) 0 := by
    simpa using approx_self (reduceAngle x)
  have hsum := hseries.sum_approx hsq hle hfirst (Real.hasSum_sin _)
  rwa [← sinStep_eq] at hsum

theorem cos_approx (x : ℤ) : Approx (cos x) (Real.cos (reduceAngle x / unit)) 50000 := by
  obtain ⟨hsq, hle⟩ := square_approx x
  have hseries := cos_series (abs_reduceAngle_div_le x)
  have hfirst : Approx unit
      ((-1) ^ 0 * (reduceAngle x / unit : ℝ) ^ (2 * 0) / (2 * 0).factorial) 0 := by
    simpa [unit_pos.ne'] using approx_self unit
  have hsum := hseries.sum_approx hsq hle hfirst (Real.hasSum_cos _)
  rwa [← cosStep_eq] at hsum

/-! ### Angles of ordinary size -/

/-- Each turn that is taken off brings the error of pi in twice. -/
theorem reduceAngle_near {x : ℤ} {ξ : ℝ} (hx : Approx x ξ 1) (hξ : |ξ| ≤ 10 ^ 12) :
    ∃ k : ℤ, unit * |(reduceAngle x / unit : ℝ) - (ξ - k * (2 * Real.pi))| ≤ 10 ^ 18 := by
  obtain ⟨k, hk, hlow, hhigh⟩ := reduceAngle_spec x
  have hu := unit_pos
  have hk' : (reduceAngle x : ℝ) = x - k * (2 * pi) := by exact_mod_cast hk
  -- there are fewer turns than the angle is large
  have hturns : |(k : ℝ)| ≤ 10 ^ 12 := by
    have hangle : |(reduceAngle x : ℝ)| ≤ pi := by
      rw [abs_le]
      exact ⟨by exact_mod_cast hlow, by exact_mod_cast hhigh.le⟩
    have hturn : (0 : ℝ) < 2 * pi := by linarith [pi_bounds.1]
    have hproduct : |(k : ℝ)| * (2 * pi) = |(x : ℝ) - reduceAngle x| := by
      rw [hk', sub_sub_cancel, abs_mul, abs_of_pos hturn]
    have hsize : |(x : ℝ) - reduceAngle x| ≤ unit * 10 ^ 12 + 1 + pi :=
      (abs_sub _ _).trans (add_le_add (hx.abs_le.trans (by gcongr)) hangle)
    have hbig := unit_ge
    have hpi := pi_bounds
    by_contra hlarge
    nlinarith [abs_nonneg (k : ℝ)]
  refine ⟨k, ?_⟩
  have hsplit : unit * ((reduceAngle x / unit : ℝ) - (ξ - k * (2 * Real.pi))) =
      (x - unit * ξ) - 2 * k * (pi - unit * Real.pi) := by
    rw [hk']
    field_simp
    ring
  calc (unit : ℝ) * |(reduceAngle x / unit : ℝ) - (ξ - k * (2 * Real.pi))|
      = |(x - unit * ξ) - 2 * k * (pi - unit * Real.pi)| := by
        rw [← hsplit, abs_mul, abs_of_pos hu]
    _ ≤ |x - unit * ξ| + 2 * |(k : ℝ)| * |pi - unit * Real.pi| := by
        refine (abs_sub _ _).trans (le_of_eq ?_)
        rw [abs_mul, abs_mul, abs_two]
    _ ≤ 1 + 2 * 10 ^ 12 * 61800 := by
        have hpi := pi_approx
        rw [Approx] at hpi hx
        gcongr
    _ ≤ 10 ^ 18 := by norm_num

end FixedPoint

/-- An angle of at most `10 ^ 12`, with as many fractional digits as its conversion bears,
has a sine and a cosine, and they are right up to one unit of the last place. -/
theorem sin_cos_accurate (d : Decimal)
    (hconversion : FixedPoint.ofDecimal d ≠ .error (.overflow "conversion"))
    (hsize : |d.toRat| ≤ 10 ^ 12) :
    (∃ s, d.sin = .ok s ∧ |(s.toRat : ℝ) - Real.sin d.toRat| ≤ 10 ^ (-50 : ℤ)) ∧
      ∃ c, d.cos = .ok c ∧ |(c.toRat : ℝ) - Real.cos d.toRat| ≤ 10 ^ (-50 : ℤ) := by
  have hscale : |70 - d.scale| ≤ maxExponent :=
    not_lt.mp fun h => hconversion (FixedPoint.ofDecimal_of_lt h)
  obtain ⟨x, hx, hnear⟩ := FixedPoint.ofDecimal_approx hscale
  have hsize' : |(d.toRat : ℝ)| ≤ 10 ^ 12 := by exact_mod_cast hsize
  obtain ⟨k, hk⟩ := FixedPoint.reduceAngle_near hnear hsize'
  have hu := FixedPoint.unit_pos
  constructor
  · refine ⟨_, by rw [sin, hx]; rfl, FixedPoint.toDecimal_dist (ε := 50000 + 10 ^ 18) ?_ (by norm_num)⟩
    refine (FixedPoint.sin_approx x).trans (le_trans ?_ hk)
    rw [← Real.sin_sub_int_mul_two_pi (d.toRat : ℝ) k]
    exact mul_le_mul_of_nonneg_left (Real.abs_sin_sub_sin_le _ _) hu.le
  · refine ⟨_, by rw [cos, hx]; rfl, FixedPoint.toDecimal_dist (ε := 50000 + 10 ^ 18) ?_ (by norm_num)⟩
    refine (FixedPoint.cos_approx x).trans (le_trans ?_ hk)
    rw [← Real.cos_sub_int_mul_two_pi (d.toRat : ℝ) k]
    exact mul_le_mul_of_nonneg_left (Real.abs_cos_sub_cos_le _ _) hu.le

/-- The largest angle, below zero and with more digits than a fixed-point number holds. -/
theorem sin_cos_accurate_at_largest :
    FixedPoint.ofDecimal ⟨-(10 ^ 92), 80⟩ ≠ .error (.overflow "conversion") ∧
      (⟨-(10 ^ 92), 80⟩ : Decimal).toRat = -(10 ^ 12) ∧
      (∃ s, sin ⟨-(10 ^ 92), 80⟩ = .ok s ∧
        |(s.toRat : ℝ) - Real.sin (-(10 ^ 12))| ≤ 10 ^ (-50 : ℤ)) ∧
      ∃ c, cos ⟨-(10 ^ 92), 80⟩ = .ok c ∧
        |(c.toRat : ℝ) - Real.cos (-(10 ^ 12))| ≤ 10 ^ (-50 : ℤ) := by
  have hconversion : FixedPoint.ofDecimal ⟨-(10 ^ 92), 80⟩ ≠ .error (.overflow "conversion") := by
    obtain ⟨x, hx, -⟩ := FixedPoint.ofDecimal_approx (d := ⟨-(10 ^ 92), 80⟩) (by decide)
    rw [hx]
    nofun
  have hvalue : (⟨-(10 ^ 92), 80⟩ : Decimal).toRat = -(10 ^ 12) := by norm_num [toRat]
  have hsize : |(⟨-(10 ^ 92), 80⟩ : Decimal).toRat| ≤ 10 ^ 12 := by
    rw [hvalue, abs_neg, abs_of_pos (by norm_num)]
  have hboth := sin_cos_accurate ⟨-(10 ^ 92), 80⟩ hconversion hsize
  rw [hvalue] at hboth
  push_cast at hboth
  exact ⟨hconversion, hvalue, hboth⟩

/-! ### The unit circle -/

/-- The last rounding does not leave the interval from `-1` to `1`, if what is rounded is out
of it by less than half a unit of the last place of the result. -/
theorem FixedPoint.abs_toDecimal_le_one {x : ℤ} {ξ ε : ℝ} (h : Approx x ξ ε) (hξ : |ξ| ≤ 1)
    (hε : ε < 10 ^ 20 / 2) : |(toDecimal x).toRat| ≤ 1 := by
  have hround : 2 * |x - divRound x (10 ^ 20 : ℕ) * 10 ^ 20| ≤ 10 ^ 20 := by
    simpa using (divRound_dist x (show ((10 ^ 20 : ℕ) : ℤ) ≠ 0 by norm_num)).1
  have hvalue : (toDecimal x).toRat = divRound x (10 ^ 20 : ℕ) * 10 ^ (-50 : ℤ) := rfl
  generalize divRound x (10 ^ 20 : ℕ) = q at hround hvalue
  have hx : |(x : ℝ)| < 10 ^ 70 + 10 ^ 20 / 2 := by
    have hle := h.abs_le
    rw [unit_eq] at hle
    linarith
  have hx' : 2 * |x| < 2 * 10 ^ 70 + 10 ^ 20 := by
    have hreal : 2 * |(x : ℝ)| < 2 * 10 ^ 70 + 10 ^ 20 := by linarith
    exact_mod_cast hreal
  -- a larger integer would be further away than half the divisor
  have hq : |q| ≤ 10 ^ 50 := by
    have hsub := abs_sub_abs_le_abs_sub (q * 10 ^ 20) x
    rw [abs_sub_comm, abs_mul, abs_of_pos (by norm_num : (0 : ℤ) < 10 ^ 20)] at hsub
    omega
  have hq' : |(q : ℚ)| ≤ 10 ^ 50 := by exact_mod_cast hq
  rw [hvalue, abs_mul, abs_of_pos (by norm_num : (0 : ℚ) < 10 ^ (-50 : ℤ))]
  calc |(q : ℚ)| * 10 ^ (-50 : ℤ) ≤ 10 ^ 50 * 10 ^ (-50 : ℤ) :=
        mul_le_mul_of_nonneg_right hq' (by norm_num)
    _ = 1 := by norm_num

/-- A point near the unit circle: each coordinate counts for at most three times its error. -/
theorem sq_add_sq_near {s c σ γ δ : ℝ} (hs : |s - σ| ≤ δ) (hc : |c - γ| ≤ δ)
    (hone : σ ^ 2 + γ ^ 2 = 1) (hδ : δ ≤ 1) : |s ^ 2 + c ^ 2 - 1| ≤ 6 * δ := by
  have hσ : |σ| ≤ 1 := by rw [← sq_le_one_iff_abs_le_one]; nlinarith [sq_nonneg γ]
  have hγ : |γ| ≤ 1 := by rw [← sq_le_one_iff_abs_le_one]; nlinarith [sq_nonneg σ]
  have hsquare : ∀ {a b : ℝ}, |a - b| ≤ δ → |b| ≤ 1 → |a ^ 2 - b ^ 2| ≤ 3 * δ := by
    intro a b hab hb
    have hsum : |a + b| ≤ 3 := by
      calc |a + b| = |(a - b) + 2 * b| := by ring_nf
        _ ≤ |a - b| + |2 * b| := abs_add_le _ _
        _ ≤ 3 := by rw [abs_mul, abs_two]; linarith
    calc |a ^ 2 - b ^ 2| = |a + b| * |a - b| := by rw [sq_sub_sq, abs_mul]
      _ ≤ 3 * δ := mul_le_mul hsum hab (abs_nonneg _) (by norm_num)
  have hsplit : s ^ 2 + c ^ 2 - 1 = (s ^ 2 - σ ^ 2) + (c ^ 2 - γ ^ 2) := by
    rw [← hone]
    ring
  rw [hsplit]
  exact (abs_add_le _ _).trans (by linarith [hsquare hs hσ, hsquare hc hγ])

/-- The sine and the cosine of every angle, however large, lie on the unit circle up to its
last place: the whole turns that are taken off an angle are the same for both. -/
theorem sin_sq_add_cos_sq_near_one {d : Decimal} {x : ℤ} (hx : FixedPoint.ofDecimal d = .ok x) :
    ∃ s c, d.sin = .ok s ∧ d.cos = .ok c ∧ |s.toRat ^ 2 + c.toRat ^ 2 - 1| ≤ 10 ^ (-49 : ℤ) ∧
      |s.toRat| ≤ 1 ∧ |c.toRat| ≤ 1 := by
  have hsin := FixedPoint.sin_approx x
  have hcos := FixedPoint.cos_approx x
  refine ⟨_, _, by rw [sin, hx]; rfl, by rw [cos, hx]; rfl, ?_, ?_, ?_⟩
  · have hs := FixedPoint.toDecimal_dist hsin (by norm_num)
    have hc := FixedPoint.toDecimal_dist hcos (by norm_num)
    have hnear := sq_add_sq_near hs hc (Real.sin_sq_add_cos_sq _) (by norm_num)
    rw [← Rat.cast_le (K := ℝ)]
    push_cast
    exact hnear.trans (by norm_num)
  · exact FixedPoint.abs_toDecimal_le_one hsin (Real.abs_sin_le_one _) (by norm_num)
  · exact FixedPoint.abs_toDecimal_le_one hcos (Real.abs_cos_le_one _) (by norm_num)

/-- The largest power of ten that is converted is an angle like any other. -/
theorem sin_sq_add_cos_sq_near_one_at_largest :
    ∃ x s c, FixedPoint.ofDecimal ⟨1, -4294967225⟩ = .ok x ∧
      sin ⟨1, -4294967225⟩ = .ok s ∧ cos ⟨1, -4294967225⟩ = .ok c ∧
      |s.toRat ^ 2 + c.toRat ^ 2 - 1| ≤ 10 ^ (-49 : ℤ) ∧ |s.toRat| ≤ 1 ∧ |c.toRat| ≤ 1 := by
  obtain ⟨x, hx, -⟩ := FixedPoint.ofDecimal_approx (d := ⟨1, -4294967225⟩) (by decide)
  obtain ⟨s, c, hboth⟩ := sin_sq_add_cos_sq_near_one hx
  exact ⟨x, s, c, hx, hboth⟩

end LazyExpr.Decimal
