/-
LazyExpr/Decimal/FixedPoint.lean

Fixed-point arithmetic with `workingScale` fractional digits, and the
logarithm, the exponential, the sine and the cosine in it.

A fixed-point number is an integer that stands for itself times
`10 ^ (-workingScale)`.  Products and quotients are cut toward zero.  Series are
summed until a term is cut to zero; `sumTerms` also takes a bound on the number
of terms, and `termLimit` is far above the number of terms that any of the
series here has.
-/
import LazyExpr.Decimal.Division

namespace LazyExpr.Decimal

/-- Fractional digits of a fixed-point number. -/
def workingScale : Nat := 70

namespace FixedPoint

/-- The fixed-point number one. -/
def unit : Int := Int.ofNat (powTen workingScale)

def mul (a b : Int) : Int := (a * b).tdiv unit

def div (a b : Int) : Int := (a * unit).tdiv b

/-! ### Conversion -/

/-- The fixed-point number for a decimal, further digits cut. -/
def ofDecimal (d : Decimal) : Except Error Int := do
  let shift := (workingScale : Int) - d.scale
  if 0 ≤ shift then
    let p ← tenPow shift "conversion"
    return d.mantissa * p
  else
    let p ← tenPow (-shift) "conversion"
    return d.mantissa.tdiv p

/-- The decimal for a fixed-point number, rounded to `divisionScale` fractional
digits. -/
def toDecimal (x : Int) : Decimal :=
  ⟨divRound x (Int.ofNat (powTen (workingScale - divisionScale))), divisionScale⟩

/-! ### Series -/

/-- The sum of the terms that `step` gives, starting from state `s`, until it
gives none or `limit` terms have been added. -/
def sumTerms {σ : Type} (step : σ → Option (Int × σ)) : (limit : Nat) → (s : σ) → Int
  | 0, _ => 0
  | limit + 1, s =>
    match step s with
    | none => 0
    | some (t, s') => t + sumTerms step limit s'

/-- More terms than any series of this module has before its terms vanish. -/
def termLimit : Nat := 1024

/-- A power of the argument and the odd number that divides it. -/
structure OddTerm where
  power : Int
  k : Nat

/-- The series of `atanh (1 / n)`: `1/n`, `1/(3 n^3)`, `1/(5 n^5)`, … -/
def atanhInverseStep (n : Nat) (s : OddTerm) : Option (Int × OddTerm) :=
  if s.power = 0 then none
  else some (s.power.tdiv s.k, ⟨s.power.tdiv (n * n), s.k + 2⟩)

def atanhInverse (n : Nat) : Int :=
  sumTerms (atanhInverseStep n) termLimit ⟨unit.tdiv n, 1⟩

/-- The series of `atan (1 / n)` has the same terms with alternating signs.  The
sign is carried by the power. -/
def atanInverseStep (n : Nat) (s : OddTerm) : Option (Int × OddTerm) :=
  if s.power = 0 then none
  else some (s.power.tdiv s.k, ⟨-(s.power.tdiv (n * n)), s.k + 2⟩)

def atanInverse (n : Nat) : Int :=
  sumTerms (atanInverseStep n) termLimit ⟨unit.tdiv n, 1⟩

/-- The series of `atanh z`, for the square `zz` of `z`. -/
def atanhStep (zz : Int) (s : OddTerm) : Option (Int × OddTerm) :=
  let t := s.power.tdiv s.k
  if t = 0 then none else some (t, ⟨mul s.power zz, s.k + 2⟩)

def atanh (z : Int) : Int :=
  sumTerms (atanhStep (mul z z)) termLimit ⟨z, 1⟩

/-- The last term of a series in which each term is made from the one before,
and its number. -/
structure Term where
  value : Int
  k : Nat

/-- The terms of `exp r` after the first. -/
def expStep (r : Int) (s : Term) : Option (Int × Term) :=
  let t := (mul s.value r).tdiv s.k
  if t = 0 then none else some (t, ⟨t, s.k + 1⟩)

/-- The terms of `sin r` after the first, for the square `rr` of `r`. -/
def sinStep (rr : Int) (s : Term) : Option (Int × Term) :=
  let t := (mul s.value rr).tdiv ((2 * s.k) * (2 * s.k + 1))
  if t = 0 then none else some (-t, ⟨-t, s.k + 1⟩)

/-- The terms of `cos r` after the first, for the square `rr` of `r`. -/
def cosStep (rr : Int) (s : Term) : Option (Int × Term) :=
  let t := (mul s.value rr).tdiv ((2 * s.k - 1) * (2 * s.k))
  if t = 0 then none else some (-t, ⟨-t, s.k + 1⟩)

/-! ### Constants -/

def ln2 : Int := 2 * atanhInverse 3

/-- `ln 10 = 3 ln 2 + ln 1.25`, and `ln 1.25 = 2 atanh (1/9)`. -/
def ln10 : Int := 3 * ln2 + 2 * atanhInverse 9

/-- Machin's formula. -/
def pi : Int := 16 * atanInverse 5 - 4 * atanInverse 239

/-! ### Logarithm and exponential -/

/-- Double `y` until it is at least one, at most `limit` times; also the number
of doublings. -/
def doubleUp : (limit : Nat) → (y : Int) → Int × Nat
  | 0, y => (y, 0)
  | limit + 1, y =>
    if y < unit then
      let (z, n) := doubleUp limit (2 * y)
      (z, n + 1)
    else (y, 0)

/-- The natural logarithm of a positive decimal.

The number is `y * 10 ^ (digits - scale)` with `0.1 ≤ y < 1`, and four doublings
at most bring `y` between one and two. -/
def ln (d : Decimal) : Except Error Int := do
  let digits : Int := digitCount d.mantissa.natAbs
  let shift := (workingScale : Int) - digits
  let y ←
    if 0 ≤ shift then do
      let p ← tenPow shift "logarithm"
      pure (d.mantissa * p)
    else do
      let p ← tenPow (-shift) "logarithm"
      pure (d.mantissa.tdiv p)
  let (y, doublings) := doubleUp 4 y
  let ratio := div (y - unit) (y + unit)
  return 2 * atanh ratio - ln2 * doublings + ln10 * (digits - d.scale)

/-- The exponential: `t` is reduced to `0 ≤ r < ln 2` and the sum of the series
at `r` is shifted by the number of times `ln 2` was taken out.  A shift to the
right by more than `maxExponent` bits leaves nothing. -/
def exp (t : Int) : Except Error Int :=
  let halvings := t.fdiv ln2
  let r := t - halvings * ln2
  let sum := unit + sumTerms (expStep r) termLimit ⟨unit, 1⟩
  if !fitsInt64 halvings || maxExponent < halvings then .error (.overflow "power")
  else if 0 ≤ halvings then .ok (Int.ofNat (sum.toNat <<< halvings.toNat))
  else if maxExponent < -halvings then .ok 0
  else .ok (Int.ofNat (sum.toNat >>> (-halvings).toNat))

/-! ### Sine and cosine -/

/-- The angle `x` less whole turns, in `-pi ≤ r < pi`. -/
def reduceAngle (x : Int) : Int :=
  let turn := 2 * pi
  x - (x + pi).fdiv turn * turn

def sin (x : Int) : Int :=
  let r := reduceAngle x
  r + sumTerms (sinStep (mul r r)) termLimit ⟨r, 1⟩

def cos (x : Int) : Int :=
  let r := reduceAngle x
  unit + sumTerms (cosStep (mul r r)) termLimit ⟨unit, 1⟩

end FixedPoint

end LazyExpr.Decimal
