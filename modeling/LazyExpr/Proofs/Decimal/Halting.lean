/-
LazyExpr/Proofs/Decimal/Halting.lean

Every loop of the fixed-point functions ends by itself.

The functions sum their series with a bound on the number of terms.  `Summed` is the summation
by itself, without a bound: a state stands in this relation to the states that the summation
passes through and to the sum exactly if it comes to an end.  `Ends` says that it does, that the
bounded summation computes its sum, and that the counter stays small on the way.

A summation ends when a term is cut to zero.  The first terms of sine and cosine grow, so the
terms have no measure that falls from the start.  But each cut is toward zero and makes nothing
larger, so a term is never larger than the real number that it stands for (`Within`), however
many cuts went into it.  The real terms decay (`Decays`), and at the bound on their number they
are below one unit of the last place: there the term is zero (`RatioSeries.ends`,
`IsOddStep.ends`).

The doublings of the logarithm are a loop of another kind (`Doubled`).  It starts from at least
one tenth, so the fourth doubling is the last.
-/
import LazyExpr.Proofs.Decimal.PowerOfOne
import LazyExpr.Proofs.Decimal.Trigonometry

namespace LazyExpr.Decimal.FixedPoint

/-! ### Summation without a bound -/

/-- The summation that starts in a state comes to an end.  It has passed through these states,
the last of which gives no term, and this is the sum of the terms. -/
inductive Summed {σ : Type} (step : σ → Option (ℤ × σ)) : σ → List σ → ℤ → Prop
  | stop {s : σ} : step s = none → Summed step s [s] 0
  | term {s s' : σ} {t total : ℤ} {states : List σ} : step s = some (t, s') →
      Summed step s' states total → Summed step s (s :: states) (t + total)

/-- A relation between the state and the number of the term is kept by each step, and where
`limit` terms have been added there is none left.  Then the summation ends by itself. -/
theorem summed_of_invariant {σ : Type} {step : σ → Option (ℤ × σ)} {R : ℕ → σ → Prop}
    (hstep : ∀ {n s t s'}, R n s → step s = some (t, s') → R (n + 1) s')
    {limit n : ℕ} (hlast : ∀ {s}, R (n + limit) s → step s = none) {s : σ} (hs : R n s) :
    ∃ states, Summed step s states (sumTerms step limit s) ∧
      ∀ s' ∈ states, ∃ i ≤ n + limit, R i s' := by
  induction limit generalizing n s with
  | zero =>
    -- The bounded sum gives up here, and so it must be shown that the other one has no term.
    refine ⟨[s], .stop (hlast hs), fun s' hs' => ?_⟩
    obtain rfl := List.mem_singleton.1 hs'
    exact ⟨n, le_rfl, hs⟩
  | succ limit ih =>
    rcases hterm : step s with - | ⟨t, next⟩
    · refine ⟨[s], ?_, fun s' hs' => ?_⟩
      · rw [sumTerms, hterm]
        exact .stop hterm
      · obtain rfl := List.mem_singleton.1 hs'
        exact ⟨n, Nat.le_add_right _ _, hs⟩
    · obtain ⟨states, hsum, hstates⟩ := ih (n := n + 1) (fun h => hlast (by rwa [add_right_comm] at h))
        (hstep hs hterm)
      refine ⟨s :: states, ?_, fun s' hs' => ?_⟩
      · rw [sumTerms, hterm]
        exact .term hterm hsum
      · rcases List.mem_cons.1 hs' with rfl | hmem
        · exact ⟨n, Nat.le_add_right _ _, hs⟩
        · obtain ⟨i, hi, hR⟩ := hstates s' hmem
          exact ⟨i, by omega, hR⟩

/-! ### Cuts make nothing larger -/

/-- The fixed-point number `x` is at most as large as the real number `ξ`. -/
def Within (x : ℤ) (ξ : ℝ) : Prop := |(x : ℝ)| ≤ unit * |ξ|

theorem within_self (x : ℤ) : Within x (x / unit) := by
  rw [Within, abs_div, abs_of_pos unit_pos, mul_div_cancel₀ _ unit_pos.ne']

theorem Within.neg {x : ℤ} {ξ : ℝ} (h : Within x ξ) : Within (-x) (-ξ) := by
  simpa [Within] using h

theorem abs_tdiv_le (a : ℤ) {b : ℤ} (hb : 0 < b) : |(a.tdiv b : ℝ)| ≤ |(a : ℝ)| / b := by
  have hsize : (a.tdiv b).natAbs = a.natAbs / b.natAbs := Int.natAbs_tdiv a b
  have hcut : ((a.natAbs / b.natAbs : ℕ) : ℝ) ≤ a.natAbs / b.natAbs := Nat.cast_div_le
  rw [← hsize, Nat.cast_natAbs, Nat.cast_natAbs, Nat.cast_natAbs, abs_of_pos hb] at hcut
  exact_mod_cast hcut

theorem Within.tdiv {x : ℤ} {ξ : ℝ} (h : Within x ξ) {c : ℤ} (hc : 0 < c) :
    Within (x.tdiv c) (ξ / c) := by
  have hc' : (0 : ℝ) < c := by exact_mod_cast hc
  rw [Within, abs_div, abs_of_pos hc', ← mul_div_assoc]
  exact (abs_tdiv_le x hc).trans (div_le_div_of_nonneg_right h hc'.le)

theorem Within.mul {x y : ℤ} {ξ η : ℝ} (hx : Within x ξ) (hy : Within y η) :
    Within (FixedPoint.mul x y) (ξ * η) := by
  have hu := unit_pos
  have hcut := abs_tdiv_le (x * y) (b := unit) (by exact_mod_cast hu)
  rw [Int.cast_mul, abs_mul, le_div_iff₀ hu] at hcut
  rw [Within, abs_mul, ← mul_le_mul_iff_of_pos_right hu]
  calc |(FixedPoint.mul x y : ℝ)| * unit ≤ |(x : ℝ)| * |(y : ℝ)| := hcut
    _ ≤ (unit * |ξ|) * (unit * |η|) := mul_le_mul hx hy (abs_nonneg _) (by positivity)
    _ = unit * (|ξ| * |η|) * unit := by ring

/-- What is less than one unit of the last place is zero. -/
theorem Within.eq_zero {x : ℤ} {ξ : ℝ} (h : Within x ξ) (hξ : unit * |ξ| < 1) : x = 0 := by
  have hlt : |(x : ℝ)| < 1 := lt_of_le_of_lt h hξ
  exact Int.abs_lt_one_iff.1 (by exact_mod_cast hlt)

/-! ### Counters -/

/-- A counter and the divisors that the series form from it fit in 32 bits.  Counters start at
one, so nothing is taken off zero either. -/
structure CounterFits (k : ℕ) : Prop where
  pos : 1 ≤ k
  counter : k < 2 ^ 32
  sinDivisor : (2 * k) * (2 * k + 1) < 2 ^ 32
  cosDivisor : (2 * k - 1) * (2 * k) < 2 ^ 32

theorem counterFits_of_le {k : ℕ} (hpos : 1 ≤ k) (h : k ≤ 2 * termLimit + 1) : CounterFits k := by
  have hk : k ≤ 2049 := h
  have hsin : (2 * k) * (2 * k + 1) ≤ (2 * 2049) * (2 * 2049 + 1) := by gcongr
  have hcos : (2 * k - 1) * (2 * k) ≤ (2 * k) * (2 * k + 1) := by
    rw [mul_comm]
    gcongr
    omega
  exact ⟨hpos, by omega, by omega, by omega⟩

/-- The summation ends by itself, with the sum that the bounded one computes, and its counter
fits in all states on the way. -/
def Ends {σ : Type} (step : σ → Option (ℤ × σ)) (counter : σ → ℕ) (s : σ) : Prop :=
  ∃ states, Summed step s states (sumTerms step termLimit s) ∧ ∀ s' ∈ states, CounterFits (counter s')

/-- A relation between the state and the number of the term that is kept by each step, that
bounds the counter, and that leaves no term at the bound on their number. -/
theorem ends_of_invariant {σ : Type} {step : σ → Option (ℤ × σ)} {counter : σ → ℕ}
    {R : ℕ → σ → Prop} (hcounter : ∀ {n s}, R n s → 1 ≤ counter s ∧ counter s ≤ 2 * n + 1)
    (hstep : ∀ {n s t s'}, R n s → step s = some (t, s') → R (n + 1) s')
    (hlast : ∀ {s}, R termLimit s → step s = none) {s : σ} (hs : R 0 s) :
    Ends step counter s := by
  obtain ⟨states, hsum, hstates⟩ :=
    summed_of_invariant hstep (fun h => hlast (by rwa [zero_add] at h)) hs
  refine ⟨states, hsum, fun s' hs' => ?_⟩
  obtain ⟨i, hi, hR⟩ := hstates s' hs'
  obtain ⟨hpos, hle⟩ := hcounter hR
  exact counterFits_of_le hpos (by omega)

/-! ### Series by ratios -/

/-- Cut or not, a term is no larger than the term of the real series, and those decay. -/
theorem RatioSeries.ends {ξ B : ℝ} {c : ℕ → ℤ} {v : ℕ → ℝ} (h : RatioSeries ξ B c v) {x first : ℤ}
    (hx : Within x ξ) (hfirst : Within first (v 0)) : Ends (ratioStep x c) Term.k ⟨first, 1⟩ := by
  have hterm : ∀ {n : ℕ} {s : Term}, s.k = n + 1 ∧ Within s.value (v n) →
      Within ((FixedPoint.mul s.value x).tdiv (c s.k)) (v (n + 1)) := by
    rintro n s ⟨hk, hvalue⟩
    rw [hk, h.next n]
    exact (hvalue.mul hx).tdiv (h.divisor_pos n)
  refine ends_of_invariant (R := fun n s => s.k = n + 1 ∧ Within s.value (v n)) ?_ ?_ ?_ ⟨rfl, hfirst⟩
  · rintro n s ⟨hk, -⟩
    omega
  · intro n s t s' hs hsome
    obtain ⟨-, rfl⟩ := ratioStep_eq_some hsome
    exact ⟨congrArg (· + 1) hs.1, hterm hs⟩
  · intro s hs
    exact ratioStep_eq_none_iff.mpr ((hterm hs).eq_zero (h.decays.last_lt h.first_le))

theorem square_within (r : ℤ) : Within (-(mul r r)) (-(r / unit : ℝ) ^ 2) := by
  rw [sq]
  exact ((within_self r).mul (within_self r)).neg

theorem unit_within : Within unit 1 := by
  simpa [unit_pos.ne'] using within_self unit

theorem sin_ends (x : ℤ) :
    Ends (sinStep (mul (reduceAngle x) (reduceAngle x))) Term.k ⟨reduceAngle x, 1⟩ := by
  rw [sinStep_eq]
  refine (sin_series (abs_reduceAngle_div_le x)).ends (square_within _) ?_
  simpa using within_self (reduceAngle x)

theorem cos_ends (x : ℤ) :
    Ends (cosStep (mul (reduceAngle x) (reduceAngle x))) Term.k ⟨unit, 1⟩ := by
  rw [cosStep_eq]
  refine (cos_series (abs_reduceAngle_div_le x)).ends (square_within _) ?_
  simpa using unit_within

theorem exp_ends {r : ℤ} (hlow : 0 ≤ r) (hhigh : r < ln2) : Ends (expStep r) Term.k ⟨unit, 1⟩ := by
  have hr : |(r / unit : ℝ)| ≤ 0.7 := by
    rw [abs_div_unit_le_iff, abs_of_nonneg (by exact_mod_cast hlow)]
    exact le_trans (by exact_mod_cast hhigh.le) ln2_bounds.2
  rw [expStep_eq]
  refine (exp_series hr).ends (within_self r) ?_
  simpa using unit_within

/-! ### Odd series -/

/-- The powers that are carried along are no larger than the odd powers of a real number of at
most one half. -/
theorem IsOddStep.ends {step : OddTerm → Option (ℤ × OddTerm)} {next : ℤ → ℤ} {ζ : ℝ}
    (hstep : IsOddStep step next) (hzero : ∀ {s}, s.power = 0 → step s = none) (hζ : |ζ| ≤ 1 / 2)
    (hnext : ∀ {x ξ}, Within x ξ → Within (next x) (ξ * ζ ^ 2)) {first : ℤ} (hfirst : Within first ζ) :
    Ends step OddTerm.k ⟨first, 1⟩ := by
  have hpower : ∀ n : ℕ, ζ ^ (2 * (n + 1) + 1) = ζ ^ (2 * n + 1) * ζ ^ 2 := by
    intro n
    ring
  have hdecays : Decays fun n => ζ ^ (2 * n + 1) := by
    intro n
    have hsq : |ζ ^ 2| ≤ 5 / 6 := by
      rw [abs_pow]
      nlinarith [abs_nonneg ζ]
    beta_reduce
    rw [hpower, abs_mul, mul_comm]
    exact mul_le_mul_of_nonneg_right hsq (abs_nonneg _)
  refine ends_of_invariant (R := fun n s => s.k = 2 * n + 1 ∧ Within s.power (ζ ^ (2 * n + 1))) ?_ ?_ ?_
    ⟨rfl, by simpa using hfirst⟩
  · rintro n s ⟨hk, -⟩
    omega
  · intro n s t s' hs hsome
    obtain ⟨-, rfl⟩ := hstep.of_some hsome
    refine ⟨by rw [hs.1]; ring, ?_⟩
    rw [hpower]
    exact hnext hs.2
  · intro s hs
    refine hzero (hs.2.eq_zero (hdecays.last_lt ?_))
    simp only [mul_zero, zero_add, pow_one]
    linarith

theorem atanh_ends {z : ℤ} (hz : |(z / unit : ℝ)| ≤ 1 / 2) :
    Ends (atanhStep (mul z z)) OddTerm.k ⟨z, 1⟩ := by
  have hself := within_self z
  refine (isOddStep_atanh (mul z z)).ends ?_ hz ?_ hself
  · intro s hs
    simp [atanhStep, hs]
  · intro x ξ hx
    rw [sq]
    exact hx.mul (hself.mul hself)

/-- The powers of `1 / n`, with alternating signs or without. -/
theorem IsOddStep.inverse_ends {step : OddTerm → Option (ℤ × OddTerm)} {n : ℕ} (hn : 2 ≤ n) {σ : ℤ}
    (hσ : |σ| = 1) (hstep : IsOddStep step fun x => σ * x.tdiv (n * n))
    (hzero : ∀ {s}, s.power = 0 → step s = none) : Ends step OddTerm.k ⟨unit.tdiv n, 1⟩ := by
  have hn' : (2 : ℝ) ≤ n := by exact_mod_cast hn
  have hσ' : |(σ : ℝ)| = 1 := by exact_mod_cast hσ
  refine hstep.ends hzero (ζ := 1 / n) ?_ ?_ ?_
  · rw [abs_of_nonneg (by positivity)]
    exact one_div_le_one_div_of_le two_pos hn'
  · intro x ξ hx
    have hquot := hx.tdiv (c := n * n) (by positivity)
    have hvalue : ξ * (1 / (n : ℝ)) ^ 2 = ξ / ((n * n : ℤ) : ℝ) := by
      push_cast
      field_simp
    rw [hvalue]
    simpa [Within, abs_mul, hσ'] using hquot
  · simpa using unit_within.tdiv (c := n) (by positivity)

/-! ### Doublings -/

/-- The loop that doubles a number until it is at least one comes to an end, at this number and
after so many doublings. -/
inductive Doubled : ℤ → ℤ → ℕ → Prop
  | stop {y : ℤ} : unit ≤ y → Doubled y y 0
  | double {y z : ℤ} {n : ℕ} : y < unit → Doubled (2 * y) z n → Doubled y z (n + 1)

theorem doubled_doubleUp {limit : ℕ} {y : ℤ} (h : unit ≤ 2 ^ limit * y) :
    Doubled y (doubleUp limit y).1 (doubleUp limit y).2 := by
  induction limit generalizing y with
  | zero => exact .stop (by simpa using h)
  | succ limit ih =>
    rw [doubleUp]
    split
    · next hlt => exact .double hlt (ih (by rwa [← mul_assoc, ← pow_succ]))
    · next hge => exact .stop (not_lt.mp hge)

/-- Between one and two the argument of the series is at most one third, and so at most one half. -/
theorem abs_ratio_le {y : ℤ} (hlow : unit ≤ y) (hhigh : y < 2 * unit) :
    |(div (y - unit) (y + unit) / unit : ℝ)| ≤ 1 / 2 := by
  have hu := unit_pos
  have hlow' : (unit : ℝ) ≤ y := by exact_mod_cast hlow
  have hhigh' : (y : ℝ) < 2 * unit := by exact_mod_cast hhigh
  have hu' : 0 < unit := by exact_mod_cast hu
  have hcut := abs_tdiv_le ((y - unit) * unit) (show 0 < y + unit by omega)
  rw [abs_div_unit_le_iff]
  refine hcut.trans ?_
  push_cast
  rw [abs_of_nonneg (mul_nonneg (by linarith) hu.le), div_le_iff₀ (by linarith)]
  nlinarith

/-- A positive number whose mantissa has not too many digits goes through both loops of the
logarithm. -/
theorem ln_loops_end {d : Decimal} (hd : 0 < d.mantissa)
    (hdigits : digitCount d.mantissa.natAbs ≤ maxExponent + 70) :
    ∃ y z n q, tenShift d.mantissa (70 - digitCount d.mantissa.natAbs) "logarithm" = .ok y ∧
      Doubled y z n ∧ unit ≤ z ∧ z < 2 * unit ∧ n ≤ 4 ∧
      q = div (z - unit) (z + unit) ∧ Ends (atanhStep (mul q q)) OddTerm.k ⟨q, 1⟩ ∧
      ln d = .ok (2 * atanh q - ln2 * n + ln10 * d.position) := by
  obtain ⟨y, hy, hnear, hle⟩ := leading_approx hd hdigits
  obtain ⟨hlow, hhigh⟩ := fraction_bounds hd
  obtain ⟨hylow, hyhigh⟩ := doubling_bounds hlow hhigh hnear hle
  obtain ⟨-, hzlow, hzhigh, hcount⟩ := doubleUp_spec hylow hyhigh
  refine ⟨y, (doubleUp 4 y).1, (doubleUp 4 y).2, _, hy, doubled_doubleUp hylow, hzlow, hzhigh, hcount, rfl,
    atanh_ends (abs_ratio_le hzlow hzhigh), ?_⟩
  rw [ln_eq, hy]
  rfl

/-! ### All loops -/

/-- **Every loop ends by itself and its counter stays small.**  Whole turns are taken off any
angle until it is between `-pi` and `pi`, and the series of sine and cosine end there.  Any
argument of the exponential is reduced to less than `ln 2`, where the series ends with a sum that
is not negative, and neither is the exponential if it is in range.  The mantissa of any positive
number is doubled four times at most, which brings it between one and two, and the series of the
area tangent ends there, unless the mantissa has so many digits that the logarithm is refused
before.  The series of the constants end, too. -/
theorem fixed_point_loops_end :
    (∀ x : ℤ,
      (∃ turns : ℤ, x - reduceAngle x = turns * (2 * pi)) ∧ -pi ≤ reduceAngle x ∧ reduceAngle x < pi ∧
      Ends (sinStep (mul (reduceAngle x) (reduceAngle x))) Term.k ⟨reduceAngle x, 1⟩ ∧
      Ends (cosStep (mul (reduceAngle x) (reduceAngle x))) Term.k ⟨unit, 1⟩) ∧
    (∀ t : ℤ, ∃ r, r = t - t.fdiv ln2 * ln2 ∧ 0 ≤ r ∧ r < ln2 ∧
      Ends (expStep r) Term.k ⟨unit, 1⟩ ∧ 0 ≤ unit + sumTerms (expStep r) termLimit ⟨unit, 1⟩ ∧
      ((∃ v, exp t = .ok v ∧ 0 ≤ v) ∨ exp t = .error (.overflow "power"))) ∧
    (∀ d : Decimal, 0 < d.toRat →
      (maxExponent + 70 < digitCount d.mantissa.natAbs ∧ ln d = .error (.overflow "logarithm")) ∨
      ∃ y z n q, tenShift d.mantissa (70 - digitCount d.mantissa.natAbs) "logarithm" = .ok y ∧
        Doubled y z n ∧ unit ≤ z ∧ z < 2 * unit ∧ n ≤ 4 ∧
        q = div (z - unit) (z + unit) ∧ Ends (atanhStep (mul q q)) OddTerm.k ⟨q, 1⟩ ∧
        ln d = .ok (2 * atanh q - ln2 * n + ln10 * d.position)) ∧
    ∀ n : ℕ, 2 ≤ n → Ends (atanhInverseStep n) OddTerm.k ⟨unit.tdiv n, 1⟩ ∧
      Ends (atanInverseStep n) OddTerm.k ⟨unit.tdiv n, 1⟩ := by
  refine ⟨fun x => ?_, fun t => ?_, fun d hd => ?_, fun n hn => ⟨?_, ?_⟩⟩
  · obtain ⟨turns, hturns, hlow, hhigh⟩ := reduceAngle_spec x
    exact ⟨⟨turns, by rw [hturns, sub_sub_cancel]⟩, hlow, hhigh, sin_ends x, cos_ends x⟩
  · obtain ⟨hlow, hhigh⟩ := remainder_bounds t
    refine ⟨_, rfl, hlow, hhigh, exp_ends hlow hhigh, ?_, ?_⟩
    · obtain ⟨r, hr⟩ := Int.eq_ofNat_of_zero_le hlow
      rw [hr, expSum_eq_expAt]
      exact Int.natCast_nonneg _
    · exact (exp_cases t).imp_left fun ⟨v, hv⟩ => ⟨v, hv, Int.natCast_nonneg v⟩
  · rcases le_or_gt (digitCount d.mantissa.natAbs : ℤ) (maxExponent + 70) with hdigits | hdigits
    · exact .inr (ln_loops_end (toRat_pos_iff.1 hd) hdigits)
    · exact .inl ⟨hdigits, ln_of_lt hdigits⟩
  · refine (isOddStep_atanhInverse n).inverse_ends hn rfl fun hzero => ?_
    simp [atanhInverseStep, hzero]
  · refine (isOddStep_atanInverse n).inverse_ends hn rfl fun hzero => ?_
    simp [atanInverseStep, hzero]

/-- The smallest fraction is doubled until it is between one and two, and the series of the area
tangent of `1 / 3` ends. -/
theorem fixed_point_loops_end_at_tenth :
    0 < (⟨1, 1⟩ : Decimal).toRat ∧
      (∃ z n, Doubled (10 ^ 69) z n ∧ unit ≤ z ∧ z < 2 * unit ∧ n ≤ 4) ∧
      Ends (atanhInverseStep 3) OddTerm.k ⟨unit.tdiv 3, 1⟩ := by
  have hpos : 0 < (⟨1, 1⟩ : Decimal).toRat := toRat_pos_iff.2 (by decide)
  obtain ⟨-, -, hln, hinverse⟩ := fixed_point_loops_end
  refine ⟨hpos, ?_, (hinverse 3 (by decide)).1⟩
  rcases hln ⟨1, 1⟩ hpos with ⟨hdigits, -⟩ | ⟨y, z, n, q, hy, hdoubled, hlow, hhigh, hcount, -⟩
  · exact absurd hdigits (by decide)
  · have hstart : tenShift 1 69 "logarithm" = .ok (10 ^ 69) := by rfl
    obtain rfl : 10 ^ 69 = y := Except.ok.inj (hstart.symm.trans hy)
    exact ⟨z, n, hdoubled, hlow, hhigh, hcount⟩

end LazyExpr.Decimal.FixedPoint
