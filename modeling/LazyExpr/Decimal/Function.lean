/-
LazyExpr/Decimal/Function.lean

Powers with any exponent, sine, cosine and tangent of decimals.

A power goes one of three ways.  A non-negative integer exponent below
`exactExponentLimit` gives the exact power; a negative one gives the rounded
reciprocal of the exact power; any other exponent goes through
`exp (y * ln x)`, with the sign put back for a negative base.
-/
import LazyExpr.Decimal.FixedPoint

namespace LazyExpr.Decimal

/-- The power by logarithm and exponential. -/
def powReal (base exponent : Decimal) : Except Error Decimal := do
  if base.isZero then
    if exponent.isNegative || exponent.isZero then throw .divisionByZero
    return zero
  if base.isNegative && !exponent.isInteger then
    throw (.undefined "power" ("negative base " ++ base.toText ++
      " with fractional exponent " ++ exponent.toText))
  let log ← FixedPoint.ln base.abs
  let y ← FixedPoint.ofDecimal exponent
  let result := FixedPoint.toDecimal (← FixedPoint.exp (FixedPoint.mul y log))
  return if base.isNegative && exponent.isOddInteger then -result else result

/-- `base` raised to `exponent`. -/
def pow (base exponent : Decimal) : Except Error Decimal :=
  match exponent.toInt64? with
  | none => powReal base exponent
  | some n =>
    if 0 ≤ n ∧ n < exactExponentLimit then powNat base n.toNat
    else if -exactExponentLimit < n ∧ n < 0 then
      if base.isZero then .error .divisionByZero
      else do
        let p ← powNat base (-n).toNat
        div one p
    else powReal base exponent

/-- The sine of an angle in radians. -/
def sin (d : Decimal) : Except Error Decimal := do
  return FixedPoint.toDecimal (FixedPoint.sin (← FixedPoint.ofDecimal d))

/-- The cosine of an angle in radians. -/
def cos (d : Decimal) : Except Error Decimal := do
  return FixedPoint.toDecimal (FixedPoint.cos (← FixedPoint.ofDecimal d))

/-- The tangent of an angle in radians. -/
def tan (d : Decimal) : Except Error Decimal := do
  let x ← FixedPoint.ofDecimal d
  let cosine := FixedPoint.cos x
  if cosine = 0 then throw (.undefined "tangent" ("cosine of " ++ d.toText ++ " is zero"))
  return FixedPoint.toDecimal (FixedPoint.div (FixedPoint.sin x) cosine)

end LazyExpr.Decimal
