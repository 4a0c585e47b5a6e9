/-
LazyExpr/Proofs/Decimal/Series.lean

How far fixed-point numbers and the sums of their series are from the real numbers that
they are meant to be.

`Approx x ξ ε` says that the fixed-point number `x` is the real number `ξ` up to `ε` units
of its last place.  Each operation has one lemma that says what it adds to `ε`: a cut costs
one unit, and a product weighs the error of each factor by the size of the other.

A series is summed until a term is cut to zero.  The run lemma (`sumTerms_approx`) asks for
a relation between the state and the number of the term, kept by each step, under which
every term is right up to `ε`.  The terms that are left out are no problem: the terms of
all series here shrink by a sixth at least from one to the next (`Decays`), so what is left
is at most six times the first term left out, and that one is within `ε` of zero.

Two kinds of series are told apart by how a term is made.  In a series by ratios
(`RatioSeries`) each term comes from the one before: exponential, sine and cosine.  There
errors are passed on, and the invariant is that they stay below 48 units.  In an odd series
(`IsOddStep`) a power is carried along and divided by an odd number for each term:
area tangent and arc tangent.
-/
import LazyExpr.Decimal.FixedPoint
import LazyExpr.Proofs.Decimal.Rounding
import Mathlib.Analysis.SpecificLimits.Normed

namespace LazyExpr.Decimal.FixedPoint

theorem unit_eq : (unit : ℝ) = 10 ^ 70 := by
  norm_num [unit, powTen, workingScale]

theorem unit_pos : (0 : ℝ) < unit := by
  rw [unit_eq]
  positivity

theorem unit_ge : (10 : ℝ) ^ 10 ≤ unit := by
  rw [unit_eq]
  norm_num

theorem abs_div_unit_le_iff {x B : ℝ} : |x / unit| ≤ B ↔ |x| ≤ unit * B := by
  rw [abs_div, abs_of_pos unit_pos, div_le_iff₀' unit_pos]

/-! ### Approximation -/

/-- The fixed-point number `x` is the real number `ξ`, up to `ε` units of the last place. -/
def Approx (x : ℤ) (ξ ε : ℝ) : Prop := |(x : ℝ) - unit * ξ| ≤ ε

theorem Approx.nonneg {x : ℤ} {ξ ε : ℝ} (h : Approx x ξ ε) : 0 ≤ ε :=
  (abs_nonneg _).trans h

theorem Approx.mono {x : ℤ} {ξ ε δ : ℝ} (h : Approx x ξ ε) (hle : ε ≤ δ) : Approx x ξ δ :=
  le_trans h hle

theorem Approx.add {x y : ℤ} {ξ η ε δ : ℝ} (hx : Approx x ξ ε) (hy : Approx y η δ) :
    Approx (x + y) (ξ + η) (ε + δ) := by
  have hsplit : ((x + y : ℤ) : ℝ) - unit * (ξ + η) = (x - unit * ξ) + (y - unit * η) := by
    push_cast
    ring
  rw [Approx, hsplit]
  exact (abs_add_le _ _).trans (add_le_add hx hy)

theorem Approx.intMul {x : ℤ} {ξ ε : ℝ} (h : Approx x ξ ε) (k : ℤ) :
    Approx (k * x) (k * ξ) (|(k : ℝ)| * ε) := by
  have hsplit : ((k * x : ℤ) : ℝ) - unit * (k * ξ) = k * (x - unit * ξ) := by
    push_cast
    ring
  rw [Approx, hsplit, abs_mul]
  exact mul_le_mul_of_nonneg_left h (abs_nonneg _)

theorem Approx.neg {x : ℤ} {ξ ε : ℝ} (h : Approx x ξ ε) : Approx (-x) (-ξ) ε := by
  simpa using h.intMul (-1)

theorem Approx.sub {x y : ℤ} {ξ η ε δ : ℝ} (hx : Approx x ξ ε) (hy : Approx y η δ) :
    Approx (x - y) (ξ - η) (ε + δ) := by
  rw [sub_eq_add_neg, sub_eq_add_neg]
  exact hx.add hy.neg

/-- A real number that is close by may be put in the place of `ξ`. -/
theorem Approx.trans {x : ℤ} {ξ η ε δ : ℝ} (h : Approx x ξ ε) (hη : unit * |ξ - η| ≤ δ) :
    Approx x η (ε + δ) := by
  have hsplit : (x : ℝ) - unit * η = (x - unit * ξ) + unit * (ξ - η) := by ring
  rw [Approx, hsplit]
  refine (abs_add_le _ _).trans (add_le_add h ?_)
  rwa [abs_mul, abs_of_pos unit_pos]

/-- A fixed-point number is some real number exactly. -/
theorem approx_self (x : ℤ) : Approx x (x / unit) 0 := by
  rw [Approx, mul_div_cancel₀ _ unit_pos.ne', sub_self, abs_zero]

theorem Approx.abs_le {x : ℤ} {ξ ε : ℝ} (h : Approx x ξ ε) : |(x : ℝ)| ≤ unit * |ξ| + ε := by
  have hsplit : (x : ℝ) = unit * ξ + (x - unit * ξ) := by ring
  calc |(x : ℝ)| = |unit * ξ + (x - unit * ξ)| := by rw [← hsplit]
    _ ≤ |unit * ξ| + |x - unit * ξ| := abs_add_le _ _
    _ ≤ unit * |ξ| + ε := by
      rw [abs_mul, abs_of_pos unit_pos]
      exact add_le_add_right h _

/-! ### Cuts -/

/-- Cutting a quotient moves it by less than one. -/
theorem abs_tdiv_sub_le (a : ℤ) {b : ℤ} (hb : b ≠ 0) : |(a.tdiv b : ℝ) - a / b| ≤ 1 := by
  have hb' : (b : ℝ) ≠ 0 := by exact_mod_cast hb
  have hdiv : (a : ℝ) = b * a.tdiv b + a.tmod b := by exact_mod_cast (Int.mul_tdiv_add_tmod a b).symm
  have hrem : |(a.tmod b : ℝ)| ≤ |(b : ℝ)| := by
    have hlt : (a.tmod b).natAbs < b.natAbs := by
      rw [Int.natAbs_tmod]
      exact Nat.mod_lt _ (by omega)
    have hle : |a.tmod b| ≤ |b| := by
      rw [Int.abs_eq_natAbs, Int.abs_eq_natAbs]
      omega
    exact_mod_cast hle
  have hdist : (a.tdiv b : ℝ) - a / b = -(a.tmod b / b) := by
    rw [hdiv]
    field_simp
    ring
  rw [hdist, abs_neg, abs_div]
  exact div_le_one_of_le₀ hrem (abs_nonneg _)

theorem tdiv_le_div {a b : ℤ} (ha : 0 ≤ a) (hb : 0 < b) : (a.tdiv b : ℝ) ≤ a / b := by
  have hb' : (0 : ℝ) < b := by exact_mod_cast hb
  rw [le_div_iff₀ hb', Int.tdiv_eq_ediv_of_nonneg ha]
  exact_mod_cast Int.ediv_mul_le a hb.ne'

theorem Approx.tdiv {x : ℤ} {ξ ε : ℝ} (h : Approx x ξ ε) {c : ℤ} (hc : 0 < c) :
    Approx (x.tdiv c) (ξ / c) (ε / c + 1) := by
  have hc' : (0 : ℝ) < c := by exact_mod_cast hc
  have hsplit : (x.tdiv c : ℝ) - unit * (ξ / c) = (x - unit * ξ) / c + (x.tdiv c - x / c) := by
    field_simp
    ring
  rw [Approx, hsplit]
  refine (abs_add_le _ _).trans (add_le_add ?_ (abs_tdiv_sub_le x hc.ne'))
  rw [abs_div, abs_of_pos hc']
  exact div_le_div_of_nonneg_right h hc'.le

/-- In a product the error of each factor counts as much as the other factor is large. -/
theorem Approx.mul {a b : ℤ} {α β ε δ A B : ℝ} (ha : Approx a α ε) (hb : Approx b β δ)
    (hA : |α| ≤ A) (hB : |(b : ℝ)| ≤ unit * B) :
    Approx (FixedPoint.mul a b) (α * β) (A * δ + B * ε + 1) := by
  have hu := unit_pos
  have hcut : |(FixedPoint.mul a b : ℝ) - (a * b) / unit| ≤ 1 := by
    have h := abs_tdiv_sub_le (a * b) (b := unit) (by exact_mod_cast hu.ne')
    push_cast at h
    exact h
  have hsplit : (FixedPoint.mul a b : ℝ) - unit * (α * β) =
      α * (b - unit * β) + (b / unit) * (a - unit * α) + (FixedPoint.mul a b - (a * b) / unit) := by
    field_simp
    ring
  have hfirst : |α * (b - unit * β)| ≤ A * δ := by
    rw [abs_mul]
    exact mul_le_mul hA hb (abs_nonneg _) ((abs_nonneg _).trans hA)
  have hsecond : |b / unit * (a - unit * α)| ≤ B * ε := by
    rw [abs_mul, abs_div, abs_of_pos hu]
    refine mul_le_mul ?_ ha (abs_nonneg _) ?_
    · rwa [div_le_iff₀' hu]
    · exact nonneg_of_mul_nonneg_right ((abs_nonneg _).trans hB) hu
  rw [Approx, hsplit]
  exact (abs_add_le _ _).trans (add_le_add ((abs_add_le _ _).trans (add_le_add hfirst hsecond)) hcut)

/-! ### Conversion -/

/-- `m * 10 ^ shift`, what is behind the point cut off. -/
def tenShift (m shift : ℤ) (operation : String) : Except Error ℤ :=
  if 0 ≤ shift then (tenPow shift operation).map fun p => m * p
  else (tenPow (-shift) operation).map fun p => m.tdiv p

theorem ofDecimal_eq (d : Decimal) :
    ofDecimal d = tenShift d.mantissa (70 - d.scale) "conversion" := by
  simp only [ofDecimal, tenShift, show (workingScale : ℤ) = 70 from rfl]
  split
  · rcases tenPow (70 - d.scale) "conversion" with err | p <;> rfl
  · rcases tenPow (-(70 - d.scale)) "conversion" with err | p <;> rfl

theorem tenShift_neg (m shift : ℤ) (operation : String) :
    tenShift (-m) shift operation = (tenShift m shift operation).map fun x => -x := by
  simp only [tenShift, Int.neg_mul, Int.neg_tdiv]
  split
  · rcases tenPow shift operation with err | p <;> rfl
  · rcases tenPow (-shift) operation with err | p <;> rfl

theorem ofDecimal_neg (d : Decimal) : ofDecimal d.neg = (ofDecimal d).map fun x => -x := by
  rw [ofDecimal_eq, ofDecimal_eq]
  exact tenShift_neg d.mantissa (70 - d.scale) "conversion"

theorem tenShift_approx (m : ℤ) {shift : ℤ} (operation : String) (h : |shift| ≤ maxExponent) :
    ∃ x, tenShift m shift operation = .ok x ∧ |(x : ℝ) - m * 10 ^ shift| ≤ 1 ∧
      (0 ≤ m → (x : ℝ) ≤ m * 10 ^ shift) := by
  rw [tenShift]
  split
  · next hshift =>
    rw [abs_of_nonneg hshift] at h
    rw [tenPow_of_le _ hshift h]
    have hvalue : ((m * ((10 ^ shift.toNat : ℕ) : ℤ) : ℤ) : ℝ) = m * 10 ^ shift := by
      push_cast
      rw [← zpow_natCast, Int.toNat_of_nonneg hshift]
    refine ⟨_, rfl, ?_, fun _ => hvalue.le⟩
    rw [hvalue, sub_self, abs_zero]
    exact zero_le_one
  · next hshift =>
    rw [abs_of_neg (not_le.mp hshift)] at h
    have hneg : 0 ≤ -shift := by omega
    rw [tenPow_of_le _ hneg h]
    have hvalue : (m : ℝ) / (((10 ^ (-shift).toNat : ℕ) : ℤ) : ℝ) = m * 10 ^ shift := by
      push_cast
      rw [← zpow_natCast, Int.toNat_of_nonneg hneg, zpow_neg, div_inv_eq_mul]
    rw [← hvalue]
    exact ⟨_, rfl, abs_tdiv_sub_le m (by positivity), fun hm => tdiv_le_div hm (by positivity)⟩

theorem tenShift_of_lt (m : ℤ) {shift : ℤ} (operation : String) (h : maxExponent < |shift|) :
    tenShift m shift operation = .error (.overflow operation) := by
  rw [tenShift]
  split
  · next hshift =>
    rw [abs_of_nonneg hshift] at h
    rw [tenPow_of_lt _ h]
    rfl
  · next hshift =>
    rw [abs_of_neg (not_le.mp hshift)] at h
    rw [tenPow_of_lt _ h]
    rfl

/-- A decimal becomes a fixed-point number as long as the power of ten between the two
scales is in range; what does not fit is cut off. -/
theorem ofDecimal_approx {d : Decimal} (h : |70 - d.scale| ≤ maxExponent) :
    ∃ x, ofDecimal d = .ok x ∧ Approx x d.toRat 1 := by
  have hvalue : (unit : ℝ) * (d.toRat : ℝ) = d.mantissa * 10 ^ (70 - d.scale) := by
    rw [unit_eq, toRat, sub_eq_add_neg, zpow_add₀ (by norm_num)]
    push_cast
    norm_cast
    ring
  obtain ⟨x, hx, hnear, -⟩ := tenShift_approx d.mantissa "conversion" h
  rw [← hvalue] at hnear
  exact ⟨x, (ofDecimal_eq d).trans hx, hnear⟩

theorem ofDecimal_of_lt {d : Decimal} (h : maxExponent < |70 - d.scale|) :
    ofDecimal d = .error (.overflow "conversion") :=
  (ofDecimal_eq d).trans (tenShift_of_lt _ _ h)

theorem ofDecimal_cases (d : Decimal) :
    (∃ x, ofDecimal d = .ok x) ∨ ofDecimal d = .error (.overflow "conversion") := by
  rcases le_or_gt |70 - d.scale| maxExponent with h | h
  · obtain ⟨x, hx, -⟩ := ofDecimal_approx h
    exact .inl ⟨x, hx⟩
  · exact .inr (ofDecimal_of_lt h)

/-- The last rounding keeps a number that is right up to half a unit of the last place of
the result within one such unit. -/
theorem toDecimal_dist {x : ℤ} {ξ ε : ℝ} (h : Approx x ξ ε) (hε : ε ≤ 10 ^ 20 / 2) :
    |((toDecimal x).toRat : ℝ) - ξ| ≤ 10 ^ (-50 : ℤ) := by
  generalize hq : divRound x (10 ^ 20 : ℕ) = q
  have hround : |(x : ℝ) - q * 10 ^ 20| ≤ 10 ^ 20 / 2 := by
    have hdist := (divRound_dist x (show ((10 ^ 20 : ℕ) : ℤ) ≠ 0 by norm_num)).1
    rw [hq] at hdist
    have hcast : 2 * |(x : ℝ) - q * (10 ^ 20 : ℕ)| ≤ |((10 ^ 20 : ℕ) : ℝ)| := by exact_mod_cast hdist
    rw [Nat.abs_cast] at hcast
    push_cast at hcast
    linarith
  have hvalue : ((toDecimal x).toRat : ℝ) = q * 10 ^ (-50 : ℤ) := by
    rw [← hq]
    simp only [toDecimal, toRat]
    push_cast
    rfl
  have hsplit : (q : ℝ) * 10 ^ (-50 : ℤ) - ξ =
      (-(x - q * 10 ^ 20) + (x - unit * ξ)) * (1 / unit) := by
    rw [unit_eq]
    norm_num
    ring
  have hpos : (0 : ℝ) < 1 / unit := one_div_pos.mpr unit_pos
  rw [hvalue, hsplit, abs_mul, abs_of_pos hpos]
  calc |-((x : ℝ) - q * 10 ^ 20) + (x - unit * ξ)| * (1 / unit)
      ≤ (10 ^ 20 / 2 + 10 ^ 20 / 2) * (1 / (unit : ℝ)) := by
        refine mul_le_mul_of_nonneg_right ((abs_add_le _ _).trans (add_le_add ?_ ?_)) hpos.le
        · rwa [abs_neg]
        · exact h.mono hε
    _ = 10 ^ (-50 : ℤ) := by
        rw [unit_eq]
        norm_num

/-! ### Terms that shrink -/

/-- Each term is smaller than the one before by a sixth at least. -/
def Decays (a : ℕ → ℝ) : Prop := ∀ n, |a (n + 1)| ≤ 5 / 6 * |a n|

theorem Decays.abs_le {a : ℕ → ℝ} (h : Decays a) (n i : ℕ) : |a (n + i)| ≤ (5 / 6) ^ i * |a n| := by
  induction i with
  | zero => simp
  | succ i ih =>
    calc |a (n + i + 1)| ≤ 5 / 6 * |a (n + i)| := h (n + i)
      _ ≤ 5 / 6 * ((5 / 6) ^ i * |a n|) := mul_le_mul_of_nonneg_left ih (by norm_num)
      _ = (5 / 6) ^ (i + 1) * |a n| := by ring

theorem hasSum_bound (b : ℝ) : HasSum (fun i : ℕ => (5 / 6 : ℝ) ^ i * b) (6 * b) := by
  have hsum := (hasSum_geometric_of_lt_one (by norm_num : (0 : ℝ) ≤ 5 / 6) (by norm_num)).mul_right b
  norm_num at hsum ⊢
  exact hsum

theorem Decays.summable {a : ℕ → ℝ} (h : Decays a) : Summable a := by
  refine Summable.of_norm_bounded (hasSum_bound |a 0|).summable fun i => ?_
  simpa using h.abs_le 0 i

/-- What is left of a series is at most six times its next term. -/
theorem Decays.abs_tsum_le {a : ℕ → ℝ} (h : Decays a) (n : ℕ) : |tsum fun i => a (n + i)| ≤ 6 * |a n| := by
  rw [← Real.norm_eq_abs]
  exact tsum_of_norm_bounded (hasSum_bound |a n|) (h.abs_le n)

theorem Decays.tsum_eq {a : ℕ → ℝ} (h : Decays a) (n : ℕ) :
    (tsum fun i => a (n + i)) = a n + tsum fun i => a (n + 1 + i) := by
  have hsum : Summable fun i => a (n + i) := by
    have hshift := (summable_nat_add_iff n).mpr h.summable
    simpa only [add_comm] using hshift
  rw [hsum.tsum_eq_zero_add]
  simp only [add_zero, add_comm, add_left_comm]

/-- The terms end long before the bound on their number is reached: there not even one unit
is left of them. -/
theorem Decays.last_lt {a : ℕ → ℝ} (h : Decays a) (h₀ : |a 0| ≤ 6) : unit * |a termLimit| < 1 := by
  have hpow : (5 / 6 : ℝ) ^ termLimit ≤ (1 / 10 ^ 20) ^ 4 := by
    rw [termLimit, show 1024 = 256 * 4 from rfl, pow_mul]
    exact pow_le_pow_left₀ (by positivity) (by norm_num) 4
  have hterm := h.abs_le 0 termLimit
  rw [zero_add] at hterm
  rw [unit_eq]
  calc (10 : ℝ) ^ 70 * |a termLimit|
      ≤ 10 ^ 70 * ((1 / 10 ^ 20) ^ 4 * 6) := by
        refine mul_le_mul_of_nonneg_left (hterm.trans ?_) (by positivity)
        exact mul_le_mul hpow h₀ (abs_nonneg _) (by positivity)
    _ < 1 := by norm_num

theorem Decays.last_approx {a : ℕ → ℝ} (h : Decays a) (h₀ : |a 0| ≤ 6) :
    Approx 0 (a (0 + termLimit)) 1 := by
  rw [Approx, Int.cast_zero, zero_sub, abs_neg, abs_mul, abs_of_pos unit_pos, zero_add]
  exact (h.last_lt h₀).le

/-! ### Sums of terms -/

/-- A sum is right up to `ε` for each of its terms and six times `ε` for the terms that are
left out. -/
theorem sumTerms_approx {σ : Type} {step : σ → Option (ℤ × σ)} {R : ℕ → σ → Prop} {a : ℕ → ℝ}
    {ε : ℝ} (ha : Decays a)
    (hsome : ∀ {n s t s'}, R n s → step s = some (t, s') → Approx t (a n) ε ∧ R (n + 1) s')
    (hnone : ∀ {n s}, R n s → step s = none → Approx 0 (a n) ε)
    {limit n : ℕ} (hlast : Approx 0 (a (n + limit)) ε) {s : σ} (hs : R n s) :
    Approx (sumTerms step limit s) (tsum fun i => a (n + i)) ((limit + 6) * ε) := by
  -- where the summation ends, the next term is cut to zero
  have hend : ∀ {n : ℕ}, Approx 0 (a n) ε → Approx 0 (tsum fun i => a (n + i)) (6 * ε) := by
    intro n hn
    simp only [Approx, Int.cast_zero, zero_sub, abs_neg, abs_mul, abs_of_pos unit_pos] at hn ⊢
    calc unit * |tsum fun i => a (n + i)| ≤ unit * (6 * |a n|) :=
          mul_le_mul_of_nonneg_left (ha.abs_tsum_le n) unit_pos.le
      _ = 6 * (unit * |a n|) := by ring
      _ ≤ 6 * ε := mul_le_mul_of_nonneg_left hn (by norm_num)
  have hε := hlast.nonneg
  induction limit generalizing n s with
  | zero => exact (hend hlast).mono (by simp)
  | succ limit ih =>
    rcases hstep : step s with - | ⟨t, s'⟩
    · rw [sumTerms, hstep]
      exact (hend (hnone hs hstep)).mono (mul_le_mul_of_nonneg_right (by simp; positivity) hε)
    · obtain ⟨ht, hs'⟩ := hsome hs hstep
      have hrest := ih (n := n + 1) (by rwa [add_assoc, add_comm 1]) hs'
      rw [sumTerms, hstep, ha.tsum_eq n]
      refine (ht.add hrest).mono (le_of_eq ?_)
      push_cast
      ring

/-! ### Series by ratios -/

/-- The step of a series in which the next term is the last one times `x`, divided by the
next of the numbers `c`. -/
def ratioStep (x : ℤ) (c : ℕ → ℤ) (s : Term) : Option (ℤ × Term) :=
  let t := (mul s.value x).tdiv (c s.k)
  if t = 0 then none else some (t, ⟨t, s.k + 1⟩)

theorem ratioStep_eq_none_iff {x : ℤ} {c : ℕ → ℤ} {s : Term} :
    ratioStep x c s = none ↔ (mul s.value x).tdiv (c s.k) = 0 := by
  simp [ratioStep]

theorem ratioStep_eq_some {x t : ℤ} {c : ℕ → ℤ} {s s' : Term} (h : ratioStep x c s = some (t, s')) :
    t = (mul s.value x).tdiv (c s.k) ∧ s' = ⟨(mul s.value x).tdiv (c s.k), s.k + 1⟩ := by
  simp only [ratioStep] at h
  split at h
  · cases h
  · obtain ⟨rfl, rfl⟩ := Prod.mk.inj (Option.some.inj h)
    exact ⟨rfl, rfl⟩

/-- The terms `v` are made by the factor `ξ` and the divisors `c`.  The factor is at most
`B`, and from the second term on the divisors are so large that the terms decay. -/
structure RatioSeries (ξ B : ℝ) (c : ℕ → ℤ) (v : ℕ → ℝ) : Prop where
  divisor_pos : ∀ n, 0 < c (n + 1)
  next : ∀ n, v (n + 1) = v n * ξ / c (n + 1)
  factor_le : |ξ| ≤ B
  divisor_ge : ∀ n, B ≤ 5 / 6 * c (n + 2)
  zeroth_le : |v 0| ≤ 6
  first_le : |v 1| ≤ 6

namespace RatioSeries

variable {ξ B : ℝ} {c : ℕ → ℤ} {v : ℕ → ℝ}

theorem decays (h : RatioSeries ξ B c v) : Decays fun n => v (n + 1) := by
  intro n
  have hc : (0 : ℝ) < c (n + 2) := by exact_mod_cast h.divisor_pos (n + 1)
  have hratio : |ξ| / c (n + 2) ≤ 5 / 6 := by
    rw [div_le_iff₀ hc]
    exact h.factor_le.trans (h.divisor_ge n)
  calc |v (n + 1 + 1)| = |ξ| / c (n + 2) * |v (n + 1)| := by
        rw [h.next (n + 1), abs_div, abs_mul, abs_of_pos hc]
        ring
    _ ≤ 5 / 6 * |v (n + 1)| := mul_le_mul_of_nonneg_right hratio (abs_nonneg _)

theorem abs_le (h : RatioSeries ξ B c v) (n : ℕ) : |v n| ≤ 6 := by
  cases n with
  | zero => exact h.zeroth_le
  | succ n =>
    have hpow : (5 / 6 : ℝ) ^ n ≤ 1 := pow_le_one₀ (by norm_num) (by norm_num)
    have hterm := h.decays.abs_le 0 n
    simp only [zero_add] at hterm
    calc |v (n + 1)| ≤ (5 / 6) ^ n * |v 1| := hterm
      _ ≤ 1 * 6 := mul_le_mul hpow h.first_le (abs_nonneg _) zero_le_one
      _ = 6 := one_mul 6

/-- The state of the summation before the term with number `n + 1`: the term before is
exact at the start, and right up to 48 units later. -/
structure AtTerm (v : ℕ → ℝ) (n : ℕ) (s : Term) : Prop where
  number : s.k = n + 1
  value : Approx s.value (v n) (if n = 0 then 0 else 48)

variable {x : ℤ}

/-- What one step makes of the errors.  The first divisor may be small, but then nothing is
passed on; later divisors take a sixth off what is passed on. -/
theorem step_approx (h : RatioSeries ξ B c v) (hx : Approx x ξ 1) (hB : |(x : ℝ)| ≤ unit * B)
    {n : ℕ} {s : Term} (hs : AtTerm v n s) :
    Approx ((mul s.value x).tdiv (c s.k)) (v (n + 1)) 48 := by
  have hc : (1 : ℝ) ≤ c (n + 1) := by exact_mod_cast h.divisor_pos n
  have hterm := (hs.value.mul hx (h.abs_le n) hB).tdiv (h.divisor_pos n)
  rw [hs.number, h.next n]
  refine hterm.mono ?_
  have hB₀ : 0 ≤ B := (abs_nonneg ξ).trans h.factor_le
  have hsmall : (7 : ℝ) / c (n + 1) ≤ 7 := div_le_self (by norm_num) hc
  rcases n with - | n
  · simp only [if_true, mul_zero, add_zero]
    linarith
  · have hpassed : B * 48 / c (n + 2) ≤ 40 := by
      rw [div_le_iff₀ (by linarith)]
      linarith [h.divisor_ge n]
    simp only [Nat.add_eq_zero_iff, one_ne_zero, and_false, if_false]
    calc (6 * 1 + B * 48 + 1) / (c (n + 1 + 1) : ℝ) + 1
        = 7 / c (n + 2) + B * 48 / c (n + 2) + 1 := by ring
      _ ≤ 48 := by linarith

/-- A series by ratios is summed with an error of 50000 units at most. -/
theorem sum_approx (h : RatioSeries ξ B c v) (hx : Approx x ξ 1) (hB : |(x : ℝ)| ≤ unit * B)
    {first : ℤ} (hfirst : Approx first (v 0) 0) {S : ℝ} (hS : HasSum v S) :
    Approx (first + sumTerms (ratioStep x c) termLimit ⟨first, 1⟩) S 50000 := by
  have hrest : Approx (sumTerms (ratioStep x c) termLimit ⟨first, 1⟩)
      (tsum fun i => v (0 + i + 1)) ((termLimit + 6) * 48) := by
    have hlast := (h.decays.last_approx h.first_le).mono (by norm_num : (1 : ℝ) ≤ 48)
    refine sumTerms_approx (R := AtTerm v) h.decays ?_ ?_ hlast ⟨rfl, hfirst⟩
    · intro n s t s' hs hstep
      have hterm := h.step_approx hx hB hs
      obtain ⟨rfl, rfl⟩ := ratioStep_eq_some hstep
      exact ⟨hterm, by simp [hs.number], by simpa using hterm⟩
    · intro n s hs hstep
      have hterm := h.step_approx hx hB hs
      rwa [ratioStep_eq_none_iff.mp hstep] at hterm
  have hsum : v 0 + (tsum fun i => v (0 + i + 1)) = S := by
    simp only [zero_add]
    rw [← hS.summable.tsum_eq_zero_add, hS.tsum_eq]
  rw [← hsum]
  refine (hfirst.add hrest).mono ?_
  norm_num [termLimit]

end RatioSeries

/-! ### Odd series -/

/-- The step takes the power that it is given, divided by the number of the term, and goes
on with the power that `next` makes. -/
structure IsOddStep (step : OddTerm → Option (ℤ × OddTerm)) (next : ℤ → ℤ) : Prop where
  of_none : ∀ {s}, step s = none → s.power.tdiv s.k = 0
  of_some : ∀ {s t s'}, step s = some (t, s') →
    t = s.power.tdiv s.k ∧ s' = ⟨next s.power, s.k + 2⟩

namespace IsOddStep

variable {step : OddTerm → Option (ℤ × OddTerm)} {next : ℤ → ℤ} {p : ℕ → ℝ}

/-- The summation may end at any test that says that the term is cut to zero. -/
theorem of_test {P : OddTerm → Prop} [DecidablePred P]
    (hstep : ∀ s, step s =
      if P s then none else some (s.power.tdiv s.k, ⟨next s.power, s.k + 2⟩))
    (hP : ∀ {s}, P s → s.power.tdiv s.k = 0) : IsOddStep step next where
  of_none := by
    intro s h
    rw [hstep] at h
    split at h
    · next htest => exact hP htest
    · cases h
  of_some := by
    intro s t s' h
    rw [hstep] at h
    split at h
    · cases h
    · obtain ⟨rfl, rfl⟩ := Prod.mk.inj (Option.some.inj h)
      exact ⟨rfl, rfl⟩

/-- The state of the summation before the term with number `n`. -/
structure AtPower (p : ℕ → ℝ) (n : ℕ) (s : OddTerm) : Prop where
  number : s.k = 2 * n + 1
  power : Approx s.power (p n) 2

theorem term_approx {n : ℕ} {s : OddTerm} (hs : AtPower p n s) :
    Approx (s.power.tdiv s.k) (p n / (2 * n + 1)) 3 := by
  have hpos : (0 : ℤ) < s.k := by
    rw [hs.number]
    positivity
  have hone : (1 : ℝ) ≤ (s.k : ℤ) := by exact_mod_cast hpos
  have hterm := hs.power.tdiv hpos
  have hcast : ((s.k : ℤ) : ℝ) = 2 * n + 1 := by
    rw [hs.number]
    push_cast
    rfl
  rw [hcast] at hterm hone
  refine hterm.mono ?_
  linarith [div_le_self (by norm_num : (0 : ℝ) ≤ 2) hone]

theorem decays (hp : ∀ n, |p (n + 1)| ≤ 5 / 6 * |p n|) : Decays fun n => p n / (2 * n + 1) := by
  intro n
  have hpos : (0 : ℝ) < 2 * n + 1 := by positivity
  have hpos' : (0 : ℝ) < 2 * (n + 1 : ℕ) + 1 := by positivity
  rw [abs_div, abs_div, abs_of_pos hpos, abs_of_pos hpos', ← mul_div_assoc]
  refine div_le_div₀ (by positivity) (hp n) hpos ?_
  push_cast
  linarith

/-- An odd series is summed with an error of 3090 units at most. -/
theorem sum_approx (hstep : IsOddStep step next) (hp : ∀ n, |p (n + 1)| ≤ 5 / 6 * |p n|)
    (hp₀ : |p 0| ≤ 1) (hnext : ∀ {n x}, Approx x (p n) 2 → Approx (next x) (p (n + 1)) 2)
    {first : ℤ} (hfirst : Approx first (p 0) 2) {S : ℝ}
    (hS : HasSum (fun n : ℕ => p n / (2 * n + 1)) S) :
    Approx (sumTerms step termLimit ⟨first, 1⟩) S 3090 := by
  have hsum : Approx (sumTerms step termLimit ⟨first, 1⟩)
      (tsum fun i : ℕ => p (0 + i) / (2 * (0 + i : ℕ) + 1)) ((termLimit + 6) * 3) := by
    have hlast : Approx 0 (p (0 + termLimit) / (2 * (0 + termLimit : ℕ) + 1)) 3 :=
      ((decays hp).last_approx (by simp; linarith)).mono (by norm_num)
    refine sumTerms_approx (R := AtPower p) (decays hp) ?_ ?_ hlast ⟨rfl, hfirst⟩
    · intro n s t s' hs hsome
      obtain ⟨rfl, rfl⟩ := hstep.of_some hsome
      exact ⟨term_approx hs, by simp only [hs.number]; ring, hnext hs.power⟩
    · intro n s hs hnone
      have hterm := term_approx hs
      rwa [hstep.of_none hnone] at hterm
  simp only [zero_add] at hsum
  rw [hS.tsum_eq] at hsum
  refine hsum.mono ?_
  norm_num [termLimit]

/-- The powers of `1 / n`, with alternating signs or without: the next power is the last one
divided by `n ^ 2`. -/
theorem inverse_approx {n : ℕ} (hn : 2 ≤ n) {σ : ℤ} (hσ : |σ| = 1)
    (hstep : IsOddStep step fun x => σ * x.tdiv (n * n)) {S : ℝ}
    (hS : HasSum (fun i : ℕ => σ ^ i * (n : ℝ)⁻¹ ^ (2 * i + 1) / (2 * i + 1)) S) :
    Approx (sumTerms step termLimit ⟨unit.tdiv n, 1⟩) S 3090 := by
  have hn' : (2 : ℝ) ≤ n := by exact_mod_cast hn
  have hsq : (4 : ℝ) ≤ n * n := by nlinarith
  have hσ' : |(σ : ℝ)| = 1 := by exact_mod_cast hσ
  have hpower : ∀ i : ℕ, (σ : ℝ) ^ (i + 1) * (n : ℝ)⁻¹ ^ (2 * (i + 1) + 1) =
      σ * (σ ^ i * (n : ℝ)⁻¹ ^ (2 * i + 1) / (n * n)) := by
    intro i
    rw [div_eq_mul_inv, mul_inv]
    ring
  refine hstep.sum_approx (p := fun i => σ ^ i * (n : ℝ)⁻¹ ^ (2 * i + 1)) ?_ ?_ ?_ ?_ hS
  · intro i
    rw [hpower, abs_mul, hσ', one_mul, abs_div, abs_of_pos (by linarith : (0 : ℝ) < n * n)]
    rw [div_le_iff₀ (by linarith)]
    nlinarith [abs_nonneg ((σ : ℝ) ^ i * (n : ℝ)⁻¹ ^ (2 * i + 1))]
  · simpa using inv_le_one_of_one_le₀ (by linarith : (1 : ℝ) ≤ n)
  · intro i x hx
    have hquot := (hx.tdiv (c := n * n) (by positivity)).intMul σ
    push_cast at hquot
    rw [hσ', one_mul, ← hpower] at hquot
    refine hquot.mono ?_
    linarith [div_le_div_of_nonneg_left (by norm_num : (0 : ℝ) ≤ 2) (by norm_num) hsq]
  · have hone : Approx unit 1 0 := by simpa [unit_pos.ne'] using approx_self unit
    have hfirst := hone.tdiv (c := n) (by positivity)
    simp only [zero_div, zero_add, Int.cast_natCast, one_div] at hfirst
    simpa using hfirst.mono one_le_two

end IsOddStep

end LazyExpr.Decimal.FixedPoint
