/-
LazyExpr/Proofs/Decimal/Power.lean

Powers with an integer exponent, and the sign and the domain of every power.

A power goes one of three ways, and which one is decided by the number that the exponent
is, never by how it is written (`pow_route`).  Everything here is read off these three
ways:

* an exact power is the power of the mantissa, with the scale multiplied
  (`powNat_of_fits`), so it is the power of the number;
* a reciprocal is the quotient of one and an exact power, and inherits its rounding and
  its failures from division;
* every other power is that of the magnitude of the base (`powMagnitude`), with the sign
  put back (`powReal_eq`).

For the sign of a base each way needs one fact about negation: a power of integers changes
sign with an odd exponent, a quotient changes sign with its divisor (`div_neg_eq`), and the
third way asks for the parity outright (`isOddInteger_iff`).
-/
import LazyExpr.Decimal.Function
import LazyExpr.Proofs.Decimal.Logarithm

namespace LazyExpr.Decimal

/-! ### Exact powers -/

theorem intPow_eq (m : ℤ) (n : ℕ) : intPow m n = m ^ n := by
  have hpow : (Int.ofNat (Nat.pow m.natAbs n) : ℤ) = |m| ^ n := by
    simp
  rw [intPow, hpow]
  split
  · next h => rw [abs_of_neg h.1, Odd.neg_pow (Nat.odd_iff.mpr h.2), neg_neg]
  · next h =>
    by_cases hm : m < 0
    · rw [abs_of_neg hm, Even.neg_pow (Nat.even_iff.mpr (by omega))]
    · rw [abs_of_nonneg (not_lt.mp hm)]

theorem powNat_of_fits {d : Decimal} {n : ℕ} (h : fitsInt64 (d.scale * n) = true) :
    d.powNat n = .ok ⟨d.mantissa ^ n, d.scale * n⟩ := by
  rw [powNat, if_pos h, intPow_eq]

theorem powNat_of_not_fits {d : Decimal} {n : ℕ} (h : fitsInt64 (d.scale * n) = false) :
    d.powNat n = .error (.overflow "power") := by
  rw [powNat, if_neg (by simp [h])]

theorem toRat_power (d : Decimal) (n : ℕ) :
    (⟨d.mantissa ^ n, d.scale * n⟩ : Decimal).toRat = d.toRat ^ n := by
  simp only [toRat]
  rw [mul_pow, ← zpow_natCast ((10 : ℚ) ^ (-d.scale)), ← zpow_mul, neg_mul]
  push_cast
  rfl

/-- An exact power that is formed is the power of the number. -/
theorem toRat_of_powNat {d p : Decimal} {n : ℕ} (h : d.powNat n = .ok p) :
    p.toRat = d.toRat ^ n := by
  rcases hfits : fitsInt64 (d.scale * n) with - | -
  · rw [powNat_of_not_fits hfits] at h
    cases h
  · rw [powNat_of_fits hfits] at h
    obtain rfl := Except.ok.inj h
    exact toRat_power d n

/-! ### The three ways -/

/-- Which way a power goes depends on the number that the exponent is. -/
theorem pow_route (e : Decimal) :
    (∃ n : ℕ, e.toRat = n ∧ n < exactExponentLimit ∧ ∀ b : Decimal, b.pow e = b.powNat n) ∨
    (∃ n : ℕ, 0 < n ∧ e.toRat = -n ∧ n < exactExponentLimit ∧ ∀ b : Decimal, b.pow e =
      if b.isZero then .error .divisionByZero else (b.powNat n).bind one.div) ∨
    ((∀ n : ℤ, e.toRat = n → exactExponentLimit ≤ |n|) ∧ ∀ b : Decimal, b.pow e = b.powReal e) := by
  rcases h : e.toInt64? with - | n
  · refine .inr (.inr ⟨fun n hn => ?_, fun b => by rw [pow, h]⟩)
    -- a smaller integer would have been found
    by_contra hlt
    obtain ⟨hlow, hhigh⟩ := abs_lt.mp (not_le.mp hlt)
    have hfits : fitsInt64 n = true := by
      rw [exactExponentLimit] at hlow hhigh
      simp only [fitsInt64, decide_eq_true_eq]
      omega
    rw [toInt64?_eq_some_iff.mpr ⟨hn, hfits⟩] at h
    cases h
  · obtain ⟨hn, -⟩ := toInt64?_eq_some_iff.mp h
    by_cases hexact : 0 ≤ n ∧ n < exactExponentLimit
    · obtain ⟨k, rfl⟩ := Int.eq_ofNat_of_zero_le hexact.1
      refine .inl ⟨k, by exact_mod_cast hn, hexact.2, fun b => ?_⟩
      rw [pow, h]
      exact if_pos hexact
    · by_cases hrecip : -exactExponentLimit < n ∧ n < 0
      · obtain ⟨k, hk⟩ := Int.eq_ofNat_of_zero_le (show 0 ≤ -n by omega)
        obtain rfl : n = -(k : ℤ) := by omega
        refine .inr (.inl ⟨k, by omega, by exact_mod_cast hn, by omega, fun b => ?_⟩)
        rw [pow, h]
        show (if 0 ≤ -(k : ℤ) ∧ _ then _ else if _ then _ else _) = _
        rw [if_neg hexact, if_pos hrecip, neg_neg]
        rfl
      · refine .inr (.inr ⟨fun m hm => ?_, fun b => ?_⟩)
        · obtain rfl : n = m := by
            rw [hn] at hm
            exact_mod_cast hm
          rw [le_abs]
          rw [exactExponentLimit] at *
          omega
        · rw [pow, h]
          show (if _ then _ else if _ then _ else _) = _
          rw [if_neg hexact, if_neg hrecip]

theorem pow_of_natCast {b e : Decimal} {n : ℕ} (he : e.toRat = n) (hn : n < exactExponentLimit) :
    b.pow e = b.powNat n := by
  rcases pow_route e with ⟨k, hk, -, hpow⟩ | ⟨k, hpos, hk, -⟩ | ⟨hlarge, -⟩
  · obtain rfl : n = k := by
      rw [he] at hk
      exact_mod_cast hk
    exact hpow b
  · have hcast : (n : ℤ) = -k := by
      rw [he] at hk
      exact_mod_cast hk
    omega
  · have hle := hlarge n (by exact_mod_cast he)
    rw [Nat.abs_cast] at hle
    omega

theorem pow_of_neg_natCast {b e : Decimal} {n : ℕ} (he : e.toRat = -n) (hpos : 0 < n)
    (hn : n < exactExponentLimit) (hb : b.isZero = false) :
    b.pow e = (b.powNat n).bind one.div := by
  rcases pow_route e with ⟨k, hk, -⟩ | ⟨k, -, hk, -, hpow⟩ | ⟨hlarge, -⟩
  · have hcast : -(n : ℤ) = k := by
      rw [he] at hk
      exact_mod_cast hk
    omega
  · obtain rfl : n = k := by
      rw [he, neg_inj] at hk
      exact_mod_cast hk
    rw [hpow b, hb]
    rfl
  · have hle := hlarge (-n) (by rw [he]; push_cast; rfl)
    rw [abs_neg, Nat.abs_cast] at hle
    omega

/-! ### Integer exponents -/

/-- The `n`-th power of `b` is one of those that are formed exactly. -/
def RaisedExactly (b : Decimal) (n : ℕ) : Prop :=
  n < exactExponentLimit ∧ fitsInt64 (b.scale * n) = true

instance (b : Decimal) (n : ℕ) : Decidable (b.RaisedExactly n) := inferInstanceAs (Decidable (_ ∧ _))

theorem pow_of_raisedExactly {b e : Decimal} {n : ℕ} (he : e.toRat = n) (h : b.RaisedExactly n) :
    ∃ p, b.pow e = .ok p ∧ p.toRat = b.toRat ^ n := by
  refine ⟨⟨b.mantissa ^ n, b.scale * n⟩, ?_, toRat_power b n⟩
  rw [pow_of_natCast he h.1, powNat_of_fits h.2]

/-- An integer exponent below the limit gives the exact power, however it is written, as
long as the scale of the power is a 64-bit number; so powers multiply as exponents add.
A negative one gives the quotient of one and the power with the opposite exponent: that
quotient, rounded as every quotient is, or its failure. -/
theorem integer_powers_exact (b : Decimal) :
    (∀ (e : Decimal) (n : ℕ), e.toRat = n → b.RaisedExactly n →
      ∃ p, b.pow e = .ok p ∧ p.toRat = b.toRat ^ n) ∧
    (∀ (e f g : Decimal) (m n : ℕ), e.toRat = m → f.toRat = n → g.toRat = m + n →
      b.RaisedExactly m → b.RaisedExactly n → b.RaisedExactly (m + n) →
      ∃ p q r, b.pow e = .ok p ∧ b.pow f = .ok q ∧ b.pow g = .ok r ∧ r.toRat = (p * q).toRat) ∧
    (∀ (e f : Decimal) (n : ℕ), e.toRat = -n → f.toRat = n → 0 < n → n < exactExponentLimit →
      b.toRat ≠ 0 →
      b.pow e = (b.pow f).bind one.div ∧
      (¬ b.RaisedExactly n → b.pow e = .error (.overflow "power")) ∧
      (b.RaisedExactly n → ∃ p, b.pow f = .ok p ∧ p.toRat = b.toRat ^ n ∧ b.pow e = one.div p ∧
        (¬ ScalesInRange one p → b.pow e = .error (.overflow "division")) ∧
        (ScalesInRange one p →
          ∃ q : ℤ, b.pow e = .ok ⟨q, 50⟩ ∧ Nearest (1 / b.toRat ^ n * 10 ^ 50) q))) := by
  refine ⟨fun e n => pow_of_raisedExactly, ?_, ?_⟩
  · intro e f g m n he hf hg hm hn hmn
    obtain ⟨p, hp, hpval⟩ := pow_of_raisedExactly he hm
    obtain ⟨q, hq, hqval⟩ := pow_of_raisedExactly hf hn
    obtain ⟨r, hr, hrval⟩ := pow_of_raisedExactly (n := m + n) (by rw [hg]; push_cast; rfl) hmn
    refine ⟨p, q, r, hp, hq, hr, ?_⟩
    rw [toRat_mul, hpval, hqval, hrval, pow_add]
  · intro e f n he hf hpos hn hb
    have hzero : b.isZero = false := Bool.eq_false_iff.mpr fun h => hb (isZero_iff.mp h)
    have hpow : b.pow e = (b.pow f).bind one.div := by
      rw [pow_of_neg_natCast he hpos hn hzero, pow_of_natCast hf hn]
    refine ⟨hpow, ?_, ?_⟩
    · intro hexact
      have hfits : fitsInt64 (b.scale * n) = false := Bool.eq_false_iff.mpr fun h => hexact ⟨hn, h⟩
      rw [hpow, pow_of_natCast hf hn, powNat_of_not_fits hfits]
      rfl
    · intro hexact
      obtain ⟨p, hp, hval⟩ := pow_of_raisedExactly hf hexact
      have hquot : b.pow e = one.div p := by
        rw [hpow, hp]
        rfl
      have hp₀ : p.isZero = false := Bool.eq_false_iff.mpr fun h => by
        rw [isZero_iff, hval] at h
        exact hb (pow_eq_zero_iff hpos.ne' |>.mp h)
      refine ⟨p, hp, hval, hquot, ?_, ?_⟩
      · intro hrange
        rw [hquot, div_of_not_inRange hp₀ hrange]
      · intro hrange
        obtain ⟨q, hq, hnear⟩ := div_of_inRange hp₀ hrange
        rw [hval, show one.toRat = 1 by simp [one]] at hnear
        exact ⟨q, hquot.trans hq, hnear⟩

/-- With `b = -3` and the exponent `-3`, written `-30e-1`: the quotient `-1/27` ends in
`…037 03|7`, which is rounded away from zero. -/
theorem reciprocal_power_rounds_away :
    (⟨-30, 1⟩ : Decimal).toRat = -(3 : ℕ) ∧ (⟨3, 0⟩ : Decimal).toRat = (3 : ℕ) ∧
      (⟨-3, 0⟩ : Decimal).toRat ≠ 0 ∧ RaisedExactly ⟨-3, 0⟩ 3 ∧
      pow ⟨-3, 0⟩ ⟨-30, 1⟩ = .ok ⟨-3703703703703703703703703703703703703703703703704, 50⟩ := by
  have he : (⟨-30, 1⟩ : Decimal).toRat = -(3 : ℕ) := by norm_num [toRat]
  have hf : (⟨3, 0⟩ : Decimal).toRat = (3 : ℕ) := by norm_num [toRat]
  have hb : (⟨-3, 0⟩ : Decimal).toRat = -3 := by norm_num [toRat]
  have hne : (⟨-3, 0⟩ : Decimal).toRat ≠ 0 := by norm_num [hb]
  have hexact : RaisedExactly ⟨-3, 0⟩ 3 := by decide
  obtain ⟨p, hp, -, -, -, hround⟩ :=
    ((integer_powers_exact ⟨-3, 0⟩).2.2 _ _ 3 he hf (by decide) (by decide) hne).2.2 hexact
  have hscale : ScalesInRange one p := by
    rw [pow_of_natCast hf (by decide), powNat_of_fits hexact.2] at hp
    obtain rfl := Except.ok.inj hp
    decide
  obtain ⟨q, hq, hnear⟩ := hround hscale
  obtain rfl : -3703703703703703703703703703703703703703703703704 = q := by
    refine Nearest.unique (nearest_of_dist ?_ ?_) hnear
    · norm_num [hb, abs_of_nonneg, abs_of_neg]
    · norm_num [hb, abs_of_nonneg, abs_of_neg]
  exact ⟨he, hf, hne, hexact, hq⟩

/-! ### Parity -/

theorem not_integer_of_abs_lt_one {x : ℚ} (hx : x ≠ 0) (h : |x| < 1) : ¬ ∃ n : ℤ, x = n := by
  rintro ⟨n, rfl⟩
  have hn : |n| < 1 := by exact_mod_cast h
  exact hx (by rw [Int.abs_lt_one_iff.mp hn, Int.cast_zero])

/-- Parity is decided on the normal form: a number that still has zeros to lose is even. -/
theorem isOddInteger_iff {e : Decimal} {n : ℤ} (h : e.toRat = n) :
    e.isOddInteger = true ↔ Odd n := by
  have hnormal := isNormal_normalize e
  rw [← toRat_normalize] at h
  simp only [isOddInteger, decide_eq_true_eq]
  generalize e.normalize = d at *
  have hle : d.scale ≤ 0 := hnormal.scale_nonpos h
  obtain rfl : d.mantissaAt 0 = n := by
    rw [toRat_eq_mantissaAt_zero hle] at h
    exact_mod_cast h
  rcases eq_or_lt_of_le hle with hs | hs
  · simp [mantissaAt, powTen, hs, Int.odd_iff]
  · obtain ⟨k, hk⟩ : ∃ k : ℕ, (0 - d.scale).toNat = k + 1 :=
      Nat.exists_eq_succ_of_ne_zero (by omega)
    have heven : Even (d.mantissaAt 0) := by
      rw [mantissaAt, hk]
      apply Even.mul_left
      exact (Int.even_coe_nat _).mpr (Nat.even_pow.mpr ⟨by decide, k.succ_ne_zero⟩)
    constructor
    · intro hodd
      omega
    · intro hodd
      exact absurd heven (Int.not_even_iff_odd.mpr hodd)

/-! ### Negation -/

theorem isZero_neg (d : Decimal) : d.neg.isZero = d.isZero := by
  simp [isZero, neg]

/-- `d`, negated if `odd` is set. -/
def signed (odd : Bool) (d : Decimal) : Decimal := if odd then d.neg else d

theorem signed_signed (x y : Bool) (d : Decimal) : (d.signed y).signed x = d.signed (x ^^ y) := by
  cases x <;> cases y <;> simp [signed, neg]

@[simp] theorem signed_zero (odd : Bool) : zero.signed odd = zero := by
  cases odd <;> rfl

/-- A number and its opposite have one magnitude, in one form. -/
theorem abs_neg_eq (d : Decimal) : d.neg.abs = d.abs := by
  obtain ⟨m, s⟩ := d
  rcases lt_trichotomy m 0 with h | rfl | h
  · simp [abs, isNegative, neg, h, h.le]
  · rfl
  · simp [abs, isNegative, neg, h, h.le]

/-- A quotient changes its sign with the divisor, and fails as before. -/
theorem div_neg_eq (a b : Decimal) : a.div b.neg = (a.div b).map neg := by
  by_cases hb : b.isZero = true
  · rw [div_of_isZero hb, div_of_isZero ((isZero_neg b).trans hb)]
    rfl
  · have hb : b.isZero = false := Bool.eq_false_iff.mpr hb
    have hb' : b.neg.isZero = false := (isZero_neg b).trans hb
    by_cases hrange : ScalesInRange a b
    · obtain ⟨q, hq, hnear⟩ := div_of_inRange hb hrange
      obtain ⟨q', hq', hnear'⟩ := div_of_inRange (a := a) hb' hrange
      rw [toRat_neg, div_neg, neg_mul] at hnear'
      rw [hq, hq', hnear'.unique hnear.neg]
      rfl
    · rw [div_of_not_inRange hb hrange, div_of_not_inRange (a := a) hb' hrange]
      rfl

theorem div_signed (a b : Decimal) (odd : Bool) :
    a.div (b.signed odd) = (a.div b).map (signed odd) := by
  cases odd with
  | false => rcases h : a.div b with err | c <;> exact h
  | true => exact div_neg_eq a b

theorem powNat_neg (d : Decimal) (n : ℕ) :
    d.neg.powNat n = (d.powNat n).map (signed (decide (Odd n))) := by
  rcases hfits : fitsInt64 (d.scale * n) with - | -
  · rw [powNat_of_not_fits hfits, powNat_of_not_fits (d := d.neg) hfits]
    rfl
  · rw [powNat_of_fits hfits, powNat_of_fits (d := d.neg) hfits]
    rcases n.even_or_odd with heven | hodd
    · simp [Except.map, signed, neg, heven.neg_pow, Nat.not_odd_iff_even.mpr heven]
    · simp [Except.map, signed, neg, hodd.neg_pow, hodd]

/-! ### Powers through the logarithm -/

theorem FixedPoint.exp_cases (t : ℤ) :
    (∃ n : ℕ, exp t = .ok n) ∨ exp t = .error (.overflow "power") := by
  simp only [exp]
  split
  · exact .inr rfl
  · split
    · exact .inl ⟨_, rfl⟩
    · split
      · exact .inl ⟨0, rfl⟩
      · exact .inl ⟨_, rfl⟩

/-- The power of a positive number by logarithm and exponential. -/
def powMagnitude (base exponent : Decimal) : Except Error Decimal := do
  let log ← FixedPoint.ln base
  let y ← FixedPoint.ofDecimal exponent
  return FixedPoint.toDecimal (← FixedPoint.exp (FixedPoint.mul y log))

theorem powMagnitude_eq_ok {b e : Decimal} {log y x : ℤ} (hlog : FixedPoint.ln b = .ok log)
    (hy : FixedPoint.ofDecimal e = .ok y) (hx : FixedPoint.exp (FixedPoint.mul y log) = .ok x) :
    powMagnitude b e = .ok (FixedPoint.toDecimal x) := by
  rw [powMagnitude, hlog, hy]
  simp only [bind, Except.bind, hx]
  rfl

theorem exists_of_powMagnitude_eq_ok {b e r : Decimal} (h : powMagnitude b e = .ok r) :
    ∃ log y x, FixedPoint.ln b = .ok log ∧ FixedPoint.ofDecimal e = .ok y ∧
      FixedPoint.exp (FixedPoint.mul y log) = .ok x ∧ r = FixedPoint.toDecimal x := by
  rcases hlog : FixedPoint.ln b with err | log
  · rw [powMagnitude, hlog] at h
    cases h
  rcases hy : FixedPoint.ofDecimal e with err | y
  · rw [powMagnitude, hlog, hy] at h
    cases h
  rcases hx : FixedPoint.exp (FixedPoint.mul y log) with err | x
  · rw [powMagnitude, hlog, hy] at h
    simp only [bind, Except.bind, hx] at h
    cases h
  rw [powMagnitude_eq_ok hlog hy hx] at h
  exact ⟨log, y, x, rfl, rfl, hx, (Except.ok.inj h).symm⟩

theorem powReal_of_isZero {b : Decimal} (hb : b.isZero = true) (e : Decimal) :
    b.powReal e = if e.isNegative || e.isZero then .error .divisionByZero else .ok zero := by
  rw [powReal, hb]
  rcases e.isNegative || e.isZero with - | - <;> rfl

theorem powReal_of_fraction {b e : Decimal} (hb : b.isNegative = true) (he : e.isInteger = false) :
    b.powReal e = .error (.undefined "power" ("negative base " ++ b.toText ++
      " with fractional exponent " ++ e.toText)) := by
  have hzero : b.isZero = false := by
    simp only [isNegative, decide_eq_true_eq] at hb
    simp [isZero, hb.ne]
  rw [powReal, hzero, hb, he]
  rfl

/-- Apart from zero and from fractional exponents of a negative base, a power is that of
the magnitude with the sign put back. -/
theorem powReal_eq {b e : Decimal} (hb : b.isZero = false)
    (he : b.isNegative = true → e.isInteger = true) :
    b.powReal e = (powMagnitude b.abs e).map (signed (b.isNegative && e.isOddInteger)) := by
  have hguard : (b.isNegative && !e.isInteger) = false := by
    rcases hneg : b.isNegative with - | -
    · rfl
    · simp [he hneg]
  rw [powReal, hb, hguard, powMagnitude]
  rcases FixedPoint.ln b.abs with err | log
  · rfl
  rcases FixedPoint.ofDecimal e with err | y
  · rfl
  rcases hexp : FixedPoint.exp (FixedPoint.mul y log) with err | x
  · simp only [bind, Except.bind, hexp]
    rfl
  · simp only [bind, Except.bind, hexp]
    rfl

/-- The power of a positive number that goes this way is its own magnitude. -/
theorem powReal_of_pos {b : Decimal} (hb : 0 < b.toRat) (e : Decimal) :
    b.powReal e = powMagnitude b e := by
  have hzero : b.isZero = false := Bool.eq_false_iff.mpr fun hz => hb.ne' (isZero_iff.mp hz)
  have hneg : b.isNegative = false := Bool.eq_false_iff.mpr fun hn =>
    lt_asymm hb (isNegative_iff.mp hn)
  have habs : b.abs = b := by simp [Decimal.abs, hneg]
  rw [powReal_eq hzero (by simp [hneg]), hneg, habs]
  rcases powMagnitude b e with err | r <;> rfl

/-- The power of a magnitude is not negative, and only a power of ten or a shift that is
too large can keep it from being formed. -/
theorem powMagnitude_cases (d e : Decimal) :
    (∃ m : ℕ, powMagnitude d e = .ok ⟨m, 50⟩) ∨
      ∃ operation, powMagnitude d e = .error (.overflow operation) := by
  rcases FixedPoint.ln_cases d with ⟨log, hlog⟩ | hlog
  · rcases FixedPoint.ofDecimal_cases e with ⟨y, hy⟩ | hy
    · rcases FixedPoint.exp_cases (FixedPoint.mul y log) with ⟨n, hn⟩ | hn
      · obtain ⟨m, hm, -⟩ := divRound_natCast n (show 0 < 10 ^ 20 by norm_num)
        refine .inl ⟨m, ?_⟩
        rw [powMagnitude_eq_ok hlog hy hn, ← hm]
        rfl
      · refine .inr ⟨"power", ?_⟩
        rw [powMagnitude, hlog, hy]
        simp only [bind, Except.bind, hn]
    · refine .inr ⟨"conversion", ?_⟩
      rw [powMagnitude, hlog, hy]
      rfl
  · refine .inr ⟨"logarithm", ?_⟩
    rw [powMagnitude, hlog]
    rfl

/-! ### Domain -/

/-- The result is not that the operation is undefined. -/
def IsDefined (r : Except Error Decimal) : Prop :=
  ∀ operation reason, r ≠ .error (.undefined operation reason)

theorem IsDefined.map {r : Except Error Decimal} (h : IsDefined r) (f : Decimal → Decimal) :
    IsDefined (r.map f) := by
  intro operation reason hr
  rcases r with err | d
  · exact h operation reason hr
  · cases hr

theorem IsDefined.bind {r : Except Error Decimal} (h : IsDefined r) {f : Decimal → Except Error Decimal}
    (hf : ∀ d, IsDefined (f d)) : IsDefined (r.bind f) := by
  intro operation reason hr
  rcases r with err | d
  · exact h operation reason hr
  · exact hf d operation reason hr

theorem isDefined_powNat (d : Decimal) (n : ℕ) : IsDefined (d.powNat n) := by
  intro operation reason h
  rcases hfits : fitsInt64 (d.scale * n) with - | -
  · rw [powNat_of_not_fits hfits] at h
    cases h
  · rw [powNat_of_fits hfits] at h
    cases h

theorem isDefined_div (a b : Decimal) : IsDefined (a.div b) := by
  intro operation reason h
  rcases hb : b.isZero with - | -
  · by_cases hrange : ScalesInRange a b
    · obtain ⟨q, hq, -⟩ := div_of_inRange hb hrange
      cases h.symm.trans hq
    · cases h.symm.trans (div_of_not_inRange hb hrange)
  · cases h.symm.trans (div_of_isZero hb)

theorem isDefined_powMagnitude (d e : Decimal) : IsDefined (powMagnitude d e) := by
  intro operation reason h
  rcases powMagnitude_cases d e with ⟨m, hm⟩ | ⟨_, hm⟩
  · cases h.symm.trans hm
  · cases h.symm.trans hm

theorem isDefined_powReal {b e : Decimal} (h : b.isNegative = true → e.isInteger = true) :
    IsDefined (b.powReal e) := by
  rcases hb : b.isZero with - | -
  · rw [powReal_eq hb h]
    exact (isDefined_powMagnitude b.abs e).map _
  · intro operation reason hr
    rw [powReal_of_isZero hb] at hr
    split at hr <;> cases hr

theorem isDefined_pow {b e : Decimal} (h : b.isNegative = true → e.isInteger = true) :
    IsDefined (b.pow e) := by
  rcases pow_route e with ⟨n, -, -, hpow⟩ | ⟨n, -, -, -, hpow⟩ | ⟨-, hpow⟩
  · rw [hpow]
    exact isDefined_powNat b n
  · rw [hpow]
    split
    · intro operation reason hr
      cases hr
    · exact (isDefined_powNat b n).bind (isDefined_div one)
  · rw [hpow]
    exact isDefined_powReal h

theorem pow_undefined_iff {b e : Decimal} :
    (∃ operation reason, b.pow e = .error (.undefined operation reason)) ↔
      b.toRat < 0 ∧ ¬ ∃ n : ℤ, e.toRat = n := by
  rw [← isNegative_iff, ← isInteger_iff]
  constructor
  · rintro ⟨operation, reason, h⟩
    by_contra hcase
    exact isDefined_pow (fun hb => by_contra fun he => hcase ⟨hb, he⟩) operation reason h
  · rintro ⟨hb, he⟩
    have hreal : b.pow e = b.powReal e := by
      rcases pow_route e with ⟨n, hn, -⟩ | ⟨n, -, hn, -⟩ | ⟨-, hpow⟩
      · exact absurd (isInteger_iff.mpr ⟨n, by exact_mod_cast hn⟩) he
      · exact absurd (isInteger_iff.mpr ⟨-n, by exact_mod_cast hn⟩) he
      · exact hpow b
    rw [hreal, powReal_of_fraction hb (Bool.eq_false_iff.mpr he)]
    exact ⟨_, _, rfl⟩

/-! ### Sign -/

/-- Exactly one of a number and its opposite is negative, unless they are zero. -/
theorem isNegative_neg {d : Decimal} (h : d.isZero = false) : d.neg.isNegative = !d.isNegative := by
  have hm : d.mantissa ≠ 0 := by simpa [isZero] using h
  rcases hm.lt_or_gt with hlt | hgt
  · simp [isNegative, neg, hlt, hlt.le]
  · simp [isNegative, neg, hgt, hgt.le]

theorem powReal_neg {b e : Decimal} (he : e.isInteger = true) :
    b.neg.powReal e = (b.powReal e).map (signed e.isOddInteger) := by
  rcases hb : b.isZero with - | -
  · rw [powReal_eq hb fun _ => he, powReal_eq ((isZero_neg b).trans hb) fun _ => he, abs_neg_eq,
      isNegative_neg hb]
    rcases powMagnitude b.abs e with err | r
    · rfl
    · simp only [Except.map, signed_signed]
      rcases b.isNegative with - | - <;> simp
  · rw [powReal_of_isZero hb, powReal_of_isZero ((isZero_neg b).trans hb)]
    rcases e.isNegative || e.isZero with - | -
    · simp [Except.map]
    · rfl

/-- The sign of the base comes out of a power with an odd exponent and is lost in one with
an even exponent, whichever way the power goes. -/
theorem pow_neg_base {b e : Decimal} (he : e.isInteger = true) :
    b.neg.pow e = (b.pow e).map (signed e.isOddInteger) := by
  rcases pow_route e with ⟨n, hn, -, hpow⟩ | ⟨n, -, hn, -, hpow⟩ | ⟨-, hpow⟩
  · have hodd : e.isOddInteger = decide (Odd n) := by
      rw [Bool.eq_iff_iff, isOddInteger_iff (n := n) (by exact_mod_cast hn)]
      simp
    rw [hpow, hpow, powNat_neg, hodd]
  · have hodd : e.isOddInteger = decide (Odd n) := by
      rw [Bool.eq_iff_iff, isOddInteger_iff (n := -n) (by exact_mod_cast hn)]
      simp
    rw [hpow, hpow, isZero_neg, powNat_neg, hodd]
    rcases b.isZero with - | -
    · rcases b.powNat n with err | p
      · rfl
      · exact div_signed one p _
    · rfl
  · rw [hpow, hpow, powReal_neg he]

theorem Nearest.nonneg {x : ℚ} {q : ℤ} (h : Nearest x q) (hx : 0 ≤ x) : 0 ≤ q := by
  by_contra hneg
  have hq : (q : ℚ) < 0 := by exact_mod_cast not_le.mp hneg
  have hdist := h.dist_le 0
  rw [Int.cast_zero, sub_zero, abs_of_nonneg hx, abs_of_nonneg (by linarith)] at hdist
  linarith

theorem pow_nonneg_of_pos {b e r : Decimal} (hb : 0 < b.toRat) (h : b.pow e = .ok r) :
    0 ≤ r.toRat := by
  have hplace : ∀ {q : ℤ}, 0 ≤ q → 0 ≤ (⟨q, 50⟩ : Decimal).toRat := by
    intro q hq
    exact mul_nonneg (by exact_mod_cast hq) (zpow_pos (by norm_num) _).le
  have hb₀ : b.isZero = false := Bool.eq_false_iff.mpr fun hz => hb.ne' (isZero_iff.mp hz)
  rcases pow_route e with ⟨n, -, -, hpow⟩ | ⟨n, -, -, -, hpow⟩ | ⟨-, hpow⟩
  · rw [toRat_of_powNat ((hpow b).symm.trans h)]
    positivity
  · rw [hpow, hb₀] at h
    rcases hp : b.powNat n with err | p
    · rw [hp] at h
      cases h
    · rw [hp] at h
      obtain ⟨-, q, rfl, hnear⟩ := div_eq_ok (show one.div p = .ok r from h)
      have hp : p.toRat = b.toRat ^ n := toRat_of_powNat hp
      rw [hp, show one.toRat = 1 by simp [one]] at hnear
      exact hplace (hnear.nonneg (by positivity))
  · rw [hpow, powReal_of_pos hb] at h
    rcases powMagnitude_cases b e with ⟨m, hm⟩ | ⟨_, hm⟩
    · rw [hm] at h
      obtain rfl := Except.ok.inj h
      exact hplace (Int.natCast_nonneg m)
    · rw [hm] at h
      cases h

/-! ### The base zero -/

theorem pow_zero_base {e : Decimal} :
    (e.toRat = 0 → zero.pow e = .ok one) ∧ (0 < e.toRat → zero.pow e = .ok zero) ∧
      (e.toRat < 0 → zero.pow e = .error .divisionByZero) := by
  have hpowNat : ∀ n : ℕ, zero.powNat n = .ok ⟨0 ^ n, 0⟩ := by
    intro n
    rw [powNat_of_fits (by simp [zero, ofInt, fitsInt64])]
    simp [zero, ofInt]
  rcases pow_route e with ⟨n, hn, -, hpow⟩ | ⟨n, hpos, hn, -, hpow⟩ | ⟨hlarge, hpow⟩
  · rw [hpow, hpowNat, hn]
    refine ⟨fun h => ?_, fun h => ?_, fun h => absurd h (by simp)⟩
    · obtain rfl : n = 0 := by exact_mod_cast h
      rfl
    · have hpos : n ≠ 0 := by
        rintro rfl
        simp at h
      rw [zero_pow hpos]
      rfl
  · have hneg : e.toRat < 0 := by
      rw [hn]
      simpa using hpos
    rw [hpow]
    exact ⟨fun h => absurd h hneg.ne, fun h => absurd h hneg.not_gt, fun _ => rfl⟩
  · rw [hpow, powReal_of_isZero rfl]
    refine ⟨fun h => ?_, fun h => ?_, fun h => ?_⟩
    · have := hlarge 0 (by rw [h]; simp)
      simp [exactExponentLimit] at this
    · have hneg : e.isNegative = false := Bool.eq_false_iff.mpr fun hn =>
        lt_asymm h (isNegative_iff.mp hn)
      have hzero : e.isZero = false := Bool.eq_false_iff.mpr fun hz => h.ne' (isZero_iff.mp hz)
      rw [hneg, hzero]
      rfl
    · rw [isNegative_iff.mpr h]
      rfl

/-- Sign and domain of a power, whichever way it goes.  A power is undefined exactly for a
negative base with a fractional exponent.  The opposite base gives the same power with an
even exponent, the opposite one with an odd exponent, and the same failure.  A positive
base gives no negative power, and the powers of zero are one, zero and a division by
zero. -/
theorem pow_sign_and_domain (b e : Decimal) :
    ((∃ operation reason, b.pow e = .error (.undefined operation reason)) ↔
      b.toRat < 0 ∧ ¬ ∃ n : ℤ, e.toRat = n) ∧
    (∀ n : ℤ, e.toRat = n →
      (∀ err, b.neg.pow e = .error err ↔ b.pow e = .error err) ∧
      (∀ r, b.pow e = .ok r → b.neg.pow e = .ok (if Even n then r else r.neg))) ∧
    (0 < b.toRat → ∀ r, b.pow e = .ok r → 0 ≤ r.toRat) ∧
    (b.toRat = 0 → b.scale = 0 →
      (e.toRat = 0 → ∃ r, b.pow e = .ok r ∧ r.toRat = 1) ∧
      (0 < e.toRat → ∃ r, b.pow e = .ok r ∧ r.toRat = 0) ∧
      (e.toRat < 0 → b.pow e = .error .divisionByZero)) := by
  refine ⟨pow_undefined_iff, fun n hn => ?_, fun hb r => pow_nonneg_of_pos hb, fun hb hs => ?_⟩
  · have hsign : ∀ r, signed e.isOddInteger r = if Even n then r else r.neg := by
      intro r
      rcases n.even_or_odd with heven | hodd
      · have hfalse : e.isOddInteger = false := Bool.eq_false_iff.mpr fun h =>
          Int.not_even_iff_odd.mpr ((isOddInteger_iff hn).mp h) heven
        rw [hfalse, if_pos heven]
        rfl
      · rw [(isOddInteger_iff hn).mpr hodd, if_neg (Int.not_even_iff_odd.mpr hodd)]
        rfl
    rw [pow_neg_base (isInteger_iff.mpr ⟨n, hn⟩)]
    rcases b.pow e with err | r
    · exact ⟨fun _ => Iff.rfl, fun r h => by cases h⟩
    · refine ⟨fun err => ⟨nofun, nofun⟩, fun r' h => ?_⟩
      obtain rfl := Except.ok.inj h
      exact congrArg _ (hsign r)
  · have hbase : b = zero := by
      have hm : b.mantissa = 0 := by simpa [isZero] using isZero_iff.mpr hb
      obtain ⟨m, s⟩ := b
      obtain rfl : m = 0 := hm
      obtain rfl : s = 0 := hs
      rfl
    subst hbase
    obtain ⟨hone, hzero, hneg⟩ := pow_zero_base (e := e)
    exact ⟨fun h => ⟨one, hone h, by simp [one]⟩, fun h => ⟨zero, hzero h, toRat_zero⟩, hneg⟩

/-- A square root by way of a power is undefined below zero; an odd exponent that is too
large for an exact power still takes the sign of the base; and zero has no negative
powers, fractional ones included. -/
theorem pow_sign_and_domain_at_edges :
    (⟨-2, 0⟩ : Decimal).toRat < 0 ∧ (¬ ∃ n : ℤ, (⟨5, 1⟩ : Decimal).toRat = n) ∧
      (∃ operation reason, pow ⟨-2, 0⟩ ⟨5, 1⟩ = .error (.undefined operation reason)) ∧
      (⟨3000000001, 0⟩ : Decimal).toRat = (3000000001 : ℤ) ∧
      (∀ err, pow ⟨-2, 0⟩ ⟨3000000001, 0⟩ = .error err ↔ pow ⟨2, 0⟩ ⟨3000000001, 0⟩ = .error err) ∧
      (∀ r, pow ⟨2, 0⟩ ⟨3000000001, 0⟩ = .ok r →
        0 ≤ r.toRat ∧ pow ⟨-2, 0⟩ ⟨3000000001, 0⟩ = .ok r.neg) ∧
      (⟨-5, 1⟩ : Decimal).toRat < 0 ∧ pow ⟨0, 0⟩ ⟨-5, 1⟩ = .error .divisionByZero := by
  have hb : (⟨-2, 0⟩ : Decimal).toRat < 0 := by norm_num [toRat]
  have hpos : 0 < (⟨2, 0⟩ : Decimal).toRat := by norm_num [toRat]
  have hhalf : ¬ ∃ n : ℤ, (⟨5, 1⟩ : Decimal).toRat = n := by
    have hvalue : (⟨5, 1⟩ : Decimal).toRat = 1 / 2 := by norm_num [toRat]
    rw [hvalue]
    exact not_integer_of_abs_lt_one (by norm_num) (by norm_num [abs_div])
  have hlarge : (⟨3000000001, 0⟩ : Decimal).toRat = (3000000001 : ℤ) := toRat_ofInt 3000000001
  have hneg : (⟨-5, 1⟩ : Decimal).toRat < 0 := by norm_num [toRat]
  obtain ⟨herr, hok⟩ := (pow_sign_and_domain ⟨2, 0⟩ ⟨3000000001, 0⟩).2.1 _ hlarge
  have hsign := (pow_sign_and_domain ⟨2, 0⟩ ⟨3000000001, 0⟩).2.2.1 hpos
  refine ⟨hb, hhalf, (pow_sign_and_domain _ _).1.mpr ⟨hb, hhalf⟩, hlarge, herr, ?_, hneg,
    ((pow_sign_and_domain ⟨0, 0⟩ ⟨-5, 1⟩).2.2.2 toRat_zero rfl).2.2 hneg⟩
  intro r hr
  have hodd : ¬ Even (3000000001 : ℤ) := by decide
  have hflip := hok r hr
  rw [if_neg hodd] at hflip
  exact ⟨hsign r hr, hflip⟩

end LazyExpr.Decimal
