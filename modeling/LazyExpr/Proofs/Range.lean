/-
LazyExpr/Proofs/Range.lean

Ranges of numbers.

A range is made by a loop on decimals, which adds one as long as the end is not passed.
`Counts` is the loop by itself, without a bound on its steps: a list stands in this relation
to its first number exactly if the loop comes to an end and has collected that list.  What
the list then is follows by induction on the steps (`Counts.numbers`): with each of them the
floor of the distance that is left goes down by one.

The computation carries a bound on the number of steps, which it takes from the magnitudes
of the two ends.  They bound the distance (`floor_sub_le`), so the loop ends before the bound
is used up (`counts_range`).
-/
import LazyExpr.Operation
import LazyExpr.Proofs.Decimal.Order
import Mathlib.Data.List.Range

namespace LazyExpr

namespace Operation

/-! ### The loop -/

/-- Counting up from a number ends, with these numbers on the way. -/
inductive Counts (last : Decimal) : Decimal → List Decimal → Prop
  | done {current : Decimal} : current.atMost last = false → Counts last current []
  | step {current : Decimal} {ds : List Decimal} : current.atMost last = true →
      Counts last (current + Decimal.one) ds → Counts last current (current :: ds)

/-- How many numbers there are from `a` to `b` in steps of one. -/
def stepCount (a b : ℚ) : ℕ := (⌊b - a⌋ + 1).toNat

theorem stepCount_of_lt {a b : ℚ} (h : b < a) : stepCount a b = 0 := by
  have hneg : ⌊b - a⌋ < 0 := Int.floor_lt.2 (by rw [Int.cast_zero]; linarith)
  exact Int.toNat_of_nonpos (by omega)

/-- Each step takes one off the distance. -/
theorem stepCount_of_le {a b : ℚ} (h : a ≤ b) : stepCount a b = stepCount (a + 1) b + 1 := by
  have hnonneg : 0 ≤ ⌊b - a⌋ := Int.floor_nonneg.2 (by linarith)
  have hnext : ⌊b - (a + 1)⌋ = ⌊b - a⌋ - 1 := by rw [← sub_sub, Int.floor_sub_one]
  unfold stepCount
  omega

theorem toRat_next (d : Decimal) : (d + Decimal.one).toRat = d.toRat + 1 := by
  rw [Decimal.toRat_add, Decimal.one, Decimal.toRat_ofInt, Int.cast_one]

/-- The numbers that the loop collects, all of them and no others. -/
theorem Counts.numbers {last current : Decimal} {ds : List Decimal} (h : Counts last current ds) :
    ds.map Decimal.toRat =
      (List.range (stepCount current.toRat last.toRat)).map fun i : ℕ => current.toRat + i := by
  induction h with
  | done hpast =>
    have hlt := not_le.1 (mt Decimal.atMost_iff.2 (Bool.eq_false_iff.1 hpast))
    rw [stepCount_of_lt hlt]
    rfl
  | @step current ds hin _ ih =>
    rw [stepCount_of_le (Decimal.atMost_iff.1 hin), List.range_succ_eq_map, List.map_cons,
      List.map_cons, List.map_map, ih, toRat_next, Nat.cast_zero, add_zero]
    refine congrArg _ (List.map_congr_left fun i _ => ?_)
    rw [Function.comp_apply, Nat.cast_succ]
    ring

/-! ### The bound -/

theorem abs_toRat_le_magnitudeBound (d : Decimal) : |d.toRat| ≤ magnitudeBound d := by
  unfold magnitudeBound
  rw [Decimal.abs_toRat_eq]
  dsimp only
  split
  · -- written without a fraction, the number is the bound
    next hscale =>
    obtain ⟨k, hk⟩ : ∃ k : ℕ, -d.scale = k := Int.eq_ofNat_of_zero_le (by omega)
    rw [hk, Int.toNat_natCast, zpow_natCast]
    exact_mod_cast le_rfl
  · next hscale =>
    obtain ⟨k, hk⟩ : ∃ k : ℕ, d.scale = k := Int.eq_ofNat_of_zero_le (by omega)
    split
    · -- all digits stand after the point
      next hdigits =>
      have hone : (10 : ℚ) ^ d.position ≤ 10 ^ (0 : ℤ) := by
        refine zpow_le_zpow_right₀ (by norm_num) ?_
        rw [Decimal.position]
        omega
      have hlt := Decimal.abs_toRat_lt d
      rw [Decimal.abs_toRat_eq] at hlt
      rw [Nat.cast_one]
      exact hlt.le.trans hone
    · -- the fraction is cut off, and one makes up for it
      have hpos : (0 : ℚ) < 10 ^ k := pow_pos (by norm_num) k
      have hlt : d.mantissa.natAbs < (d.mantissa.natAbs / 10 ^ k + 1) * 10 ^ k := by
        rw [mul_comm]
        exact Nat.lt_mul_div_succ _ (pow_pos (by norm_num) k)
      rw [hk, Int.toNat_natCast, zpow_neg, zpow_natCast, ← div_eq_mul_inv, div_le_iff₀ hpos]
      exact_mod_cast hlt.le

theorem floor_sub_le (a b : Decimal) :
    ⌊b.toRat - a.toRat⌋ ≤ ((magnitudeBound a + magnitudeBound b : ℕ) : ℤ) := by
  refine Int.floor_le_iff.2 ?_
  have ha := (neg_le_abs a.toRat).trans (abs_toRat_le_magnitudeBound a)
  have hb := (le_abs_self b.toRat).trans (abs_toRat_le_magnitudeBound b)
  push_cast
  linarith

/-- With room for all its steps, the bounded loop ends as the loop does. -/
theorem counts_countUp {last current : Decimal} {limit : ℕ}
    (h : stepCount current.toRat last.toRat ≤ limit) :
    Counts last current (countUp last limit current) := by
  induction limit generalizing current with
  | zero =>
    refine .done (Bool.eq_false_iff.2 fun hin => ?_)
    rw [stepCount_of_le (Decimal.atMost_iff.1 hin)] at h
    omega
  | succ limit ih =>
    unfold countUp
    split
    · next hin =>
      refine .step hin (ih ?_)
      rw [stepCount_of_le (Decimal.atMost_iff.1 hin), ← toRat_next] at h
      omega
    · next hpast => exact .done (Bool.eq_false_iff.2 hpast)

theorem counts_range (a b : Decimal) : Counts b a (range a b) := by
  unfold range
  split
  · refine counts_countUp ?_
    have hle := floor_sub_le a b
    unfold stepCount
    omega
  · next hpast => exact .done (Bool.eq_false_iff.2 hpast)

/-! ### The operator -/

/-- **Ranges are inclusive.**  For any two numbers, counting up from the first comes to an end
with some numbers, and the operator gives a new list of them, already forced.  They are as
many as the floor of the distance says, and one more, or none; the one at place `i` is `i`
more than the first.  So they lie between the ends, each is larger than those before, and
one more step would pass the end. -/
theorem inclusive_range (a b : Decimal) :
    ∃ ds : List Decimal, Counts b a ds ∧
      (∀ (force : Thunk → Eval Value) (depth : Nat) (m : Machine),
        BinaryOp.range.apply force depth (.number a) (.number b) m =
          .ok (.list ⟨m.store.lists⟩ (ds.map fun d => .forced (.number d)))
            { m with store := { m.store with lists := m.store.lists + 1 } }) ∧
      (ds.length : ℤ) = max 0 (⌊b.toRat - a.toRat⌋ + 1) ∧
      (∀ i : ℕ, i < ds.length → ∃ d, ds[i]? = some d ∧ d.toRat = a.toRat + i) ∧
      (∀ d ∈ ds, a.toRat ≤ d.toRat ∧ d.toRat ≤ b.toRat) ∧
      ds.Pairwise (fun d e => d.toRat < e.toRat) ∧
      b.toRat < a.toRat + ds.length := by
  have hcounts := counts_range a b
  have hnumbers := hcounts.numbers
  have hlength : (range a b).length = stepCount a.toRat b.toRat := by
    simpa using congrArg List.length hnumbers
  have hmax : ((range a b).length : ℤ) = max 0 (⌊b.toRat - a.toRat⌋ + 1) := by
    rw [hlength, stepCount, Int.toNat_eq_max, max_comm]
  refine ⟨range a b, hcounts, fun force depth m => ?_, hmax, fun i hi => ?_, fun d hd => ?_, ?_, ?_⟩
  · show Eval.newForced ((range a b).map Value.number) m = _
    rw [Eval.newForced, List.map_map]
    rfl
  · have hplace := congrArg (·[i]?) hnumbers
    rw [hlength] at hi
    simp only [List.getElem?_map, List.getElem?_range hi, Option.map_some] at hplace
    exact Option.map_eq_some_iff.1 hplace
  · -- the number is that of some place, which is at most the floor of the distance
    have hmem : d.toRat ∈ (range a b).map Decimal.toRat := List.mem_map_of_mem hd
    rw [hnumbers] at hmem
    obtain ⟨i, hi, hvalue⟩ := List.mem_map.1 hmem
    have hfloor : (i : ℤ) ≤ ⌊b.toRat - a.toRat⌋ := by
      have hlt := List.mem_range.1 hi
      unfold stepCount at hlt
      omega
    have hdistance : (i : ℚ) ≤ b.toRat - a.toRat := by exact_mod_cast Int.le_floor.1 hfloor
    have hnonneg : (0 : ℚ) ≤ i := Nat.cast_nonneg i
    rw [← hvalue]
    exact ⟨by linarith, by linarith⟩
  · rw [← List.pairwise_map (R := (· < ·)), hnumbers, List.pairwise_map]
    exact List.pairwise_lt_range.imp fun hlt => by
      have hcast : ((_ : ℕ) : ℚ) < _ := Nat.cast_lt.2 hlt
      linarith
  · have hfloor := Int.lt_floor_add_one (b.toRat - a.toRat)
    have hle : ⌊b.toRat - a.toRat⌋ + 1 ≤ ((range a b).length : ℤ) := hmax ▸ le_max_right _ _
    have hcast : (⌊b.toRat - a.toRat⌋ : ℚ) + 1 ≤ (range a b).length := by exact_mod_cast hle
    linarith

/-- From `-0.5` to `1.7` there are three numbers, and the last of them is `1.5`. -/
theorem range_between_fractions :
    ∃ ds : List Decimal, Counts ⟨17, 1⟩ ⟨-5, 1⟩ ds ∧ ds.length = 3 ∧
      (∃ d, ds[2]? = some d ∧ d.toRat = 3 / 2 ∧ d.toRat ≤ 17 / 10) := by
  have ha : (⟨-5, 1⟩ : Decimal).toRat = -1 / 2 := by norm_num [Decimal.toRat]
  have hb : (⟨17, 1⟩ : Decimal).toRat = 17 / 10 := by norm_num [Decimal.toRat]
  obtain ⟨ds, hcounts, -, hcount, hplace, hbetween, -⟩ := inclusive_range ⟨-5, 1⟩ ⟨17, 1⟩
  rw [ha, hb] at hcount
  have hlength : ds.length = 3 := by
    norm_num at hcount
    omega
  obtain ⟨d, hd, hvalue⟩ := hplace 2 (by omega)
  rw [ha] at hvalue
  refine ⟨ds, hcounts, hlength, d, hd, ?_, hb ▸ (hbetween d (List.mem_of_getElem? hd)).2⟩
  rw [hvalue]
  norm_num

end Operation

end LazyExpr
