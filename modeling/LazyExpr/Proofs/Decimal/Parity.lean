/-
LazyExpr/Proofs/Decimal/Parity.lean

Sine and tangent are odd, and the cosine is even.

Every step but one treats an angle and its opposite alike: conversions, products and
quotients are cut toward zero, and the last rounding takes a half away from zero.  The step
that does not is the one that takes whole turns off: what is left lies in an interval that
has `-pi` in it but not `pi`, so an angle of half a turn and its opposite both come down to
`-pi` (`reduceAngle_neg`).  The cosine does not mind.  The sine there ought to be zero, and
it is 24 units of the last place of a fixed-point number, on both sides (`sin_half_turn`).
So the fixed-point sine is not odd, and it takes the last rounding to make it so.
-/
import LazyExpr.Proofs.Decimal.Tangent

namespace LazyExpr.Decimal

theorem divRound_neg (num : ℤ) {den : ℤ} (hden : den ≠ 0) :
    divRound (-num) den = -divRound num den := by
  have hneg := nearest_divRound (-num) hden
  push_cast at hneg
  rw [neg_div] at hneg
  exact hneg.unique (nearest_divRound num hden).neg

namespace FixedPoint

theorem toDecimal_neg (x : ℤ) : toDecimal (-x) = (toDecimal x).neg := by
  rw [toDecimal, divRound_neg x (by decide)]
  rfl

/-! ### Whole turns -/

/-- The opposite of an angle comes down to the opposite of what is left of it, but for half a
turn. -/
theorem reduceAngle_neg (x : ℤ) :
    reduceAngle (-x) = if reduceAngle x = -pi then -pi else -reduceAngle x := by
  obtain ⟨k, hk, hlow, hhigh⟩ := reduceAngle_spec x
  have hpi := pi_pos
  split
  · next hend =>
    -- the opposite of `-pi` is not in the interval, and takes one turn more to get there
    have hx : -x = -pi + (1 - k) * (2 * pi) := by linarith
    rw [hx, reduceAngle_eq le_rfl (by omega)]
  · next hend =>
    have hx : -x = -reduceAngle x + -k * (2 * pi) := by linarith
    rw [hx, reduceAngle_eq (by omega) (by omega)]

theorem cos_neg (x : ℤ) : cos (-x) = cos x := by
  rw [cos_eq_cosAt, cos_eq_cosAt, reduceAngle_neg]
  split
  · next hend => rw [hend]
  · rw [Int.natAbs_neg]

theorem sin_neg {x : ℤ} (h : reduceAngle x ≠ -pi) : sin (-x) = -sin x := by
  simp only [sin, reduceAngle_neg, if_neg h, sinStep_eq]
  rw [sumTerms_ratioStep_neg, neg_add]
  simp [mul]

theorem sin_half_turn {x : ℤ} (h : reduceAngle x = -pi) :
    sin x = 24 ∧ sin (-x) = 24 ∧ cos x = 2 - unit := by
  have hneg : reduceAngle (-x) = -pi := by rw [reduceAngle_neg, if_pos h]
  simp only [sin, cos, h, hneg]
  decide +kernel

/-! ### The last rounding -/

theorem toDecimal_sin_neg (x : ℤ) : toDecimal (sin (-x)) = (toDecimal (sin x)).neg := by
  by_cases h : reduceAngle x = -pi
  · obtain ⟨hsin, hneg, -⟩ := sin_half_turn h
    rw [hsin, hneg]
    rfl
  · rw [sin_neg h, toDecimal_neg]

theorem toDecimal_tan_neg (x : ℤ) :
    toDecimal (div (sin (-x)) (cos (-x))) = (toDecimal (div (sin x) (cos x))).neg := by
  rw [cos_neg]
  by_cases h : reduceAngle x = -pi
  · obtain ⟨hsin, hneg, hcos⟩ := sin_half_turn h
    rw [hsin, hneg, hcos]
    rfl
  · have hquot : div (-sin x) (cos x) = -div (sin x) (cos x) := by
      simp [div]
    rw [sin_neg h, hquot, toDecimal_neg]

end FixedPoint

/-- The opposite angle has the opposite sine and tangent and the same cosine, or fails as the
angle does.  This holds for half a turn as well, where both angles come down to the same one:
the fixed-point sine does not change its sign there, but it is rounded to zero. -/
theorem sin_cos_tan_parity (d : Decimal) :
    (d.neg.sin = d.sin.map neg ∧ d.neg.cos = d.cos ∧ d.neg.tan = d.tan.map neg) ∧
    (∀ s, d.sin = .ok s → ∃ s', d.neg.sin = .ok s' ∧ s'.toRat = -s.toRat) ∧
    (∀ t, d.tan = .ok t → ∃ t', d.neg.tan = .ok t' ∧ t'.toRat = -t.toRat) ∧
    (∀ x, FixedPoint.ofDecimal d = .ok x → FixedPoint.reduceAngle x = -FixedPoint.pi →
      FixedPoint.reduceAngle (-x) = -FixedPoint.pi ∧ FixedPoint.sin (-x) = FixedPoint.sin x ∧
        FixedPoint.sin x ≠ 0 ∧ d.sin = .ok ⟨0, 50⟩) := by
  have hparity : d.neg.sin = d.sin.map neg ∧ d.neg.cos = d.cos ∧ d.neg.tan = d.tan.map neg := by
    rcases hx : FixedPoint.ofDecimal d with err | x
    · have hneg : FixedPoint.ofDecimal d.neg = .error err := by rw [FixedPoint.ofDecimal_neg, hx]; rfl
      rw [sin, sin, cos, cos, tan, tan, hx, hneg]
      exact ⟨rfl, rfl, rfl⟩
    · have hneg : FixedPoint.ofDecimal d.neg = .ok (-x) := by rw [FixedPoint.ofDecimal_neg, hx]; rfl
      rw [tan_eq_ok hx, tan_eq_ok hneg, FixedPoint.toDecimal_tan_neg, sin, sin, cos, cos, hx, hneg]
      refine ⟨congrArg _ (FixedPoint.toDecimal_sin_neg x), ?_, rfl⟩
      exact congrArg (fun c => Except.ok (FixedPoint.toDecimal c)) (FixedPoint.cos_neg x)
  refine ⟨hparity, fun s hs => ?_, fun t ht => ?_, fun x hx hend => ?_⟩
  · exact ⟨s.neg, by rw [hparity.1, hs]; rfl, toRat_neg s⟩
  · exact ⟨t.neg, by rw [hparity.2.2, ht]; rfl, toRat_neg t⟩
  · obtain ⟨hsin, hneg, -⟩ := FixedPoint.sin_half_turn hend
    refine ⟨by rw [FixedPoint.reduceAngle_neg, if_pos hend], by rw [hsin, hneg], by simp [hsin], ?_⟩
    rw [sin, hx]
    show Except.ok (FixedPoint.toDecimal (FixedPoint.sin x)) = _
    rw [hsin]
    rfl

/-- The number for pi is such an angle. -/
theorem sin_cos_tan_parity_at_half_turn :
    FixedPoint.ofDecimal ⟨FixedPoint.pi, 70⟩ = .ok FixedPoint.pi ∧
      FixedPoint.reduceAngle FixedPoint.pi = -FixedPoint.pi ∧ sin ⟨FixedPoint.pi, 70⟩ = .ok ⟨0, 50⟩ ∧
      ∃ s', sin ⟨-FixedPoint.pi, 70⟩ = .ok s' ∧ s'.toRat = -(⟨0, 50⟩ : Decimal).toRat := by
  have hconversion : FixedPoint.ofDecimal ⟨FixedPoint.pi, 70⟩ = .ok FixedPoint.pi := by
    show Except.ok (FixedPoint.pi * 1) = _
    rw [mul_one]
  have hend : FixedPoint.reduceAngle FixedPoint.pi = -FixedPoint.pi := by
    have hpi := FixedPoint.pi_pos
    have hturn := FixedPoint.reduceAngle_eq (r := -FixedPoint.pi) le_rfl (by omega) 1
    rwa [show -FixedPoint.pi + 1 * (2 * FixedPoint.pi) = FixedPoint.pi by ring] at hturn
  obtain ⟨-, hodd, -, hhalf⟩ := sin_cos_tan_parity ⟨FixedPoint.pi, 70⟩
  have hzero := (hhalf _ hconversion hend).2.2.2
  exact ⟨hconversion, hend, hzero, hodd _ hzero⟩

end LazyExpr.Decimal
