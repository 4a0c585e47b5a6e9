/-
LazyExpr/Proofs/Decimal/Monotonicity.lean

The terms of a series by ratios grow with its factor, digit for digit.

A term is made from the one before by a product and two quotients that are cut toward zero.
Cuts toward zero do not see signs, so apart from their signs the terms are natural numbers
(`sumTerms_ratioStep_of_pos`, `sumTerms_ratioStep_of_neg`), and cuts of natural numbers are
monotone, so each term is a monotone function of the factor, with all its cuts.  No error
bound enters.

`termSums` keeps the terms with odd numbers and those with even numbers apart, and both
sums grow with the factor (`termSums_mono`).  For a positive factor they are added up: the
series of the exponential is monotone.  For a negative factor they are subtracted from each
other: between two angles the cosine is enclosed by the even terms of one of them and the
odd terms of the other.
-/
import LazyExpr.Proofs.Decimal.Series

namespace LazyExpr.Decimal.FixedPoint

/-! ### Terms that are cut to zero -/

theorem sumTerms_ratioStep_zero (x : ℤ) (c : ℕ → ℤ) (limit k : ℕ) :
    sumTerms (ratioStep x c) limit ⟨0, k⟩ = 0 := by
  cases limit with
  | zero => rfl
  | succ limit => simp [sumTerms, ratioStep, mul]

/-- The summation ends at a term that is cut to zero, and might as well go on: all terms
after it are zero. -/
theorem sumTerms_ratioStep_succ (x : ℤ) (c : ℕ → ℤ) (limit : ℕ) (t : ℤ) (k : ℕ) :
    sumTerms (ratioStep x c) (limit + 1) ⟨t, k⟩ =
      (mul t x).tdiv (c k) + sumTerms (ratioStep x c) limit ⟨(mul t x).tdiv (c k), k + 1⟩ := by
  by_cases h : (mul t x).tdiv (c k) = 0
  · rw [h, sumTerms_ratioStep_zero]
    simp [sumTerms, ratioStep, h]
  · simp [sumTerms, ratioStep, h]

/-- The sum of the first, the third, … of the terms after `t`, and that of the second, the
fourth, …, for a factor and divisors that are natural numbers. -/
def termSums (x : ℕ) (c : ℕ → ℕ) : (limit t k : ℕ) → ℕ × ℕ
  | 0, _, _ => (0, 0)
  | limit + 1, t, k =>
    let next := t * x / powTen workingScale / c k
    if next = 0 then (0, 0)
    else
      let rest := termSums x c limit next (k + 1)
      (next + rest.2, rest.1)

theorem termSums_zero (x : ℕ) (c : ℕ → ℕ) (limit k : ℕ) : termSums x c limit 0 k = (0, 0) := by
  cases limit with
  | zero => rfl
  | succ limit => simp [termSums]

theorem termSums_succ (x : ℕ) (c : ℕ → ℕ) (limit t k : ℕ) :
    termSums x c (limit + 1) t k =
      (t * x / powTen workingScale / c k +
          (termSums x c limit (t * x / powTen workingScale / c k) (k + 1)).2,
        (termSums x c limit (t * x / powTen workingScale / c k) (k + 1)).1) := by
  by_cases h : t * x / powTen workingScale / c k = 0
  · rw [h, termSums_zero]
    simp [termSums, h]
  · simp [termSums, h]

/-! ### Growth -/

theorem termSums_mono {x y : ℕ} (hxy : x ≤ y) (c : ℕ → ℕ) (limit : ℕ) {t u : ℕ} (htu : t ≤ u) (k : ℕ) :
    (termSums x c limit t k).1 ≤ (termSums y c limit u k).1 ∧
      (termSums x c limit t k).2 ≤ (termSums y c limit u k).2 := by
  induction limit generalizing t u k with
  | zero => exact ⟨le_rfl, le_rfl⟩
  | succ limit ih =>
    have hnext : t * x / powTen workingScale / c k ≤ u * y / powTen workingScale / c k :=
      Nat.div_le_div_right (Nat.div_le_div_right (Nat.mul_le_mul htu hxy))
    -- the numbers of the terms change their parity with each step, so the sums trade places
    obtain ⟨hfirst, hsecond⟩ := ih hnext (k + 1)
    rw [termSums_succ, termSums_succ]
    exact ⟨Nat.add_le_add hnext hsecond, hfirst⟩

/-! ### Signs -/

/-- Started from the opposite term, a series by ratios has the opposite sum. -/
theorem sumTerms_ratioStep_neg (x : ℤ) (c : ℕ → ℤ) (limit : ℕ) (t : ℤ) (k : ℕ) :
    sumTerms (ratioStep x c) limit ⟨-t, k⟩ = -sumTerms (ratioStep x c) limit ⟨t, k⟩ := by
  induction limit generalizing t k with
  | zero => rfl
  | succ limit ih =>
    have hnext : (mul (-t) x).tdiv (c k) = -((mul t x).tdiv (c k)) := by
      simp [mul]
    rw [sumTerms_ratioStep_succ, sumTerms_ratioStep_succ, hnext, ih, neg_add]

theorem tdiv_mul_natCast (t x c : ℕ) :
    (mul t x).tdiv c = (t * x / powTen workingScale / c : ℕ) := rfl

/-- With a positive factor all terms are added. -/
theorem sumTerms_ratioStep_of_pos (x : ℕ) (c : ℕ → ℕ) (limit t k : ℕ) :
    sumTerms (ratioStep x fun k => c k) limit ⟨t, k⟩ =
      (termSums x c limit t k).1 + (termSums x c limit t k).2 := by
  induction limit generalizing t k with
  | zero => rfl
  | succ limit ih =>
    rw [sumTerms_ratioStep_succ, termSums_succ, tdiv_mul_natCast, ih]
    push_cast
    ring

/-- With a negative factor the signs alternate, and the first term is negative. -/
theorem sumTerms_ratioStep_of_neg (x : ℕ) (c : ℕ → ℕ) (limit t k : ℕ) :
    sumTerms (ratioStep (-x) fun k => c k) limit ⟨t, k⟩ =
      (termSums x c limit t k).2 - (termSums x c limit t k).1 := by
  induction limit generalizing t k with
  | zero => rfl
  | succ limit ih =>
    -- the sign passes from the factor to the next term, and from there to all that follow
    have hnext : (mul t (-x)).tdiv (c k) = -((mul t x).tdiv (c k)) := by
      simp [mul]
    rw [sumTerms_ratioStep_succ, termSums_succ, hnext, sumTerms_ratioStep_neg, tdiv_mul_natCast, ih]
    push_cast
    ring

end LazyExpr.Decimal.FixedPoint
