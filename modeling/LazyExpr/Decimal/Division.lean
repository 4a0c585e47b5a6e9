/-
LazyExpr/Decimal/Division.lean

Operations whose result is rounded or cut: quotient, remainder, square root and
powers with an integer exponent.

Quotients and roots carry `divisionScale` fractional digits.  Rounding is to the
nearest multiple, a half going away from zero (`divRound`).  Every power of ten
that an operation needs is formed through `tenPow`, so a distance of scales that
is out of range is reported as an overflow in the name of the operation; a zero
divisor is reported before that.
-/
import LazyExpr.Decimal.Text

namespace LazyExpr.Decimal

/-- Fractional digits kept by quotients, roots and the functions built on
series. -/
def divisionScale : Nat := 50

/-! ### Rounding -/

/-- The integer nearest to `num / den`; a half goes away from zero. -/
def divRound (num den : Int) : Int :=
  let q := num.tdiv den
  if 2 * (num.tmod den).natAbs < den.natAbs then q
  else if decide (num < 0) == decide (den < 0) then q + 1
  else q - 1

/-- The number rounded to at most `scale` fractional digits. -/
def roundTo (d : Decimal) (scale : Int) : Except Error Decimal :=
  if d.scale ≤ scale then .ok d
  else do
    let divisor ← tenPow (d.scale - scale) "rounding"
    return ⟨divRound d.mantissa divisor, scale⟩

/-! ### Quotient and remainder -/

/-- The power of ten by which the numerator is raised so that the quotient of
the mantissas has `divisionScale` fractional digits.  Each step of the sum stays
within 64 bits. -/
def quotientShift (a b : Decimal) : Except Error Int :=
  let gap := b.scale - a.scale
  let shift := gap + divisionScale
  if fitsInt64 gap && fitsInt64 shift then .ok shift else .error (.overflow "division")

/-- The quotient rounded to `divisionScale` fractional digits. -/
def div (a b : Decimal) : Except Error Decimal := do
  if b.isZero then throw .divisionByZero
  let shift ← quotientShift a b
  if 0 ≤ shift then
    let p ← tenPow shift "division"
    return ⟨divRound (a.mantissa * p) b.mantissa, divisionScale⟩
  else
    let p ← tenPow (-shift) "division"
    return ⟨divRound a.mantissa (b.mantissa * p), divisionScale⟩

/-- The exact remainder of the quotient truncated toward zero; it has the sign
of the dividend. -/
def rem (a b : Decimal) : Except Error Decimal := do
  if b.isZero then throw .moduloByZero
  let s := max a.scale b.scale
  let pa ← tenPow (s - a.scale) "modulo"
  let pb ← tenPow (s - b.scale) "modulo"
  return ⟨(a.mantissa * pa).tmod (b.mantissa * pb), s⟩

/-! ### Square root -/

/-- Newton's iteration for the square root of `n`, from a guess that is not
below it: it goes down until it would stop falling. -/
def sqrtFrom (n guess : Nat) : Nat :=
  let next := (guess + n / guess) / 2
  if _h : next < guess then sqrtFrom n next else guess
termination_by guess

/-- The largest natural number whose square is at most `n`. -/
def floorSqrt (n : Nat) : Nat :=
  if n ≤ 1 then n else sqrtFrom n (1 <<< (n.log2 / 2 + 1))

/-- The square root, rounded to `divisionScale` fractional digits.  The root of
the mantissa is taken with at least one digit more than that. -/
def sqrt (d : Decimal) : Except Error Decimal := do
  if d.isNegative then throw (.undefined "square root" ("negative argument " ++ d.toText))
  let rootScale := max (divisionScale : Int) (d.scale.tdiv 2 + 1) + 1
  let p ← tenPow (2 * rootScale - d.scale) "square root"
  let root := floorSqrt (d.mantissa * p).toNat
  roundTo ⟨root, rootScale⟩ divisionScale

/-! ### Integer powers -/

/-- Integer exponents of smaller absolute value are raised exactly. -/
def exactExponentLimit : Int := 2147483647

/-- `m ^ n`, by the magnitude and the sign of `m`. -/
def intPow (m : Int) (n : Nat) : Int :=
  let p : Int := Int.ofNat (Nat.pow m.natAbs n)
  if m < 0 ∧ n % 2 = 1 then -p else p

/-- The exact power, refused when its scale leaves 64 bits. -/
def powNat (d : Decimal) (n : Nat) : Except Error Decimal :=
  let s := d.scale * n
  if fitsInt64 s then .ok ⟨intPow d.mantissa n, s⟩ else .error (.overflow "power")

end LazyExpr.Decimal
