/-
LazyExpr/Decimal/Basic.lean

Decimal numbers of any size and any number of fractional digits.

A decimal is an integer mantissa and a decimal scale, and stands for
`mantissa * 10 ^ (-scale)`.  One number has many such forms (`10`, `1e1`,
`10.0`); every operation here either depends on the number alone or says how it
uses the form it is given.

Scales may be enormous (`1e5000000000` is an ordinary literal), so nothing in
this module writes out a power of ten unless both operands are of comparable
size: comparison looks at the position of the leading digit first, and sums with
a zero operand return the other operand as it is.
-/
namespace LazyExpr

/-- The number `mantissa * 10 ^ (-scale)`. -/
structure Decimal where
  mantissa : Int
  scale : Int
deriving DecidableEq, Inhabited, Repr

namespace Decimal

/-! ### Failures -/

/-- Why an operation on decimals has no result. -/
inductive Error where
  | divisionByZero
  | moduloByZero
  /-- The operation is not defined for its argument. -/
  | undefined (operation reason : String)
  /-- A power of ten or a scale left the supported range. -/
  | overflow (operation : String)
  /-- The text is not a number literal. -/
  | malformed (text : String)
deriving DecidableEq, Repr

/-- The text shown for a failure. -/
def Error.message : Error → String
  | divisionByZero => "division by zero"
  | moduloByZero => "modulo by zero"
  | undefined operation reason => operation ++ " is undefined: " ++ reason
  | overflow operation => operation ++ " overflowed the supported exponent range"
  | malformed text => "invalid number literal '" ++ text ++ "'"

/-! ### Bounds -/

/-- Whether `n` is in the range of a signed 64-bit word. -/
def fitsInt64 (n : Int) : Bool :=
  decide (-9223372036854775808 ≤ n ∧ n ≤ 9223372036854775807)

/-- The largest exponent for which a power of ten is formed. -/
def maxExponent : Int := 4294967295

/-- Ten to the `n`-th power. -/
def powTen (n : Nat) : Nat := Nat.pow 10 n

/-- Ten to the `e`-th power, refused outside `0 ≤ e ≤ maxExponent` in the name of `operation`. -/
def tenPow (e : Int) (operation : String) : Except Error Int :=
  if 0 ≤ e ∧ e ≤ maxExponent then .ok (Int.ofNat (powTen e.toNat)) else .error (.overflow operation)

/-! ### Constructors -/

/-- The integer `n`, without fractional digits. -/
def ofInt (n : Int) : Decimal := ⟨n, 0⟩

def zero : Decimal := ofInt 0

def one : Decimal := ofInt 1

/-! ### Sign -/

def isZero (d : Decimal) : Bool := d.mantissa == 0

def isNegative (d : Decimal) : Bool := decide (d.mantissa < 0)

def neg (d : Decimal) : Decimal := ⟨-d.mantissa, d.scale⟩

def abs (d : Decimal) : Decimal := if d.isNegative then d.neg else d

/-! ### Exact arithmetic -/

/-- The mantissa of `d` when written with scale `s`, for `d.scale ≤ s`. -/
def mantissaAt (d : Decimal) (s : Int) : Int :=
  d.mantissa * Int.ofNat (powTen (s - d.scale).toNat)

/-- The exact sum, at the larger of the two scales.  A zero operand leaves the
other one as it is, whatever the distance between the scales. -/
def add (a b : Decimal) : Decimal :=
  if a.isZero then b
  else if b.isZero then a
  else
    let s := max a.scale b.scale
    ⟨a.mantissaAt s + b.mantissaAt s, s⟩

def sub (a b : Decimal) : Decimal := a.add b.neg

/-- The exact product: scales add. -/
def mul (a b : Decimal) : Decimal := ⟨a.mantissa * b.mantissa, a.scale + b.scale⟩

instance : Neg Decimal := ⟨neg⟩
instance : Add Decimal := ⟨add⟩
instance : Sub Decimal := ⟨sub⟩
instance : Mul Decimal := ⟨mul⟩

/-! ### Order -/

/-- The number of decimal digits of `n`; zero has one. -/
def digitCount (n : Nat) : Nat := (Nat.toDigits 10 n).length

/-- Order of the absolute values of two non-zero decimals.  The positions of the
leading digits decide unless they agree, and then the scales differ by no more
than the lengths of the mantissas do. -/
def compareMagnitude (a b : Decimal) : Ordering :=
  let position (d : Decimal) : Int := digitCount d.mantissa.natAbs - d.scale
  (compare (position a) (position b)).then
    (let s := max a.scale b.scale
     compare (a.mantissaAt s).natAbs (b.mantissaAt s).natAbs)

/-- Order by numeric value. -/
def compareValue (a b : Decimal) : Ordering :=
  (compare a.mantissa.sign b.mantissa.sign).then <|
    if a.isZero then .eq
    else if a.isNegative then compareMagnitude b a
    else compareMagnitude a b

/-- Equality of numeric value, so `10` and `10.0` are the same. -/
def sameValue (a b : Decimal) : Bool := compareValue a b == .eq

/-- `a` is at most `b`. -/
def atMost (a b : Decimal) : Bool := compareValue a b != .gt

/-! ### Normal form -/

/-- Divide by ten as long as the last digit is a zero, lowering the scale each
time. -/
def stripZeros (m : Nat) (s : Int) : Nat × Int :=
  if m ≠ 0 ∧ m % 10 = 0 then stripZeros (m / 10) (s - 1) else (m, s)
termination_by m
decreasing_by omega

/-- The form without trailing zeros in the mantissa; zero has scale 0.  Two
decimals have the same value exactly when they have the same normal form. -/
def normalize (d : Decimal) : Decimal :=
  if d.isZero then zero
  else
    let (m, s) := stripZeros d.mantissa.natAbs d.scale
    ⟨d.mantissa.sign * m, s⟩

/-- Whether the value has no fractional part. -/
def isInteger (d : Decimal) : Bool := decide (d.normalize.scale ≤ 0)

/-- Whether the value is an odd integer. -/
def isOddInteger (d : Decimal) : Bool :=
  let n := d.normalize
  decide (n.scale = 0 ∧ n.mantissa % 2 = 1)

/-! ### Conversions to integers -/

/-- The value as a signed 64-bit integer.  A normal form with more than eighteen
further zeros is out of range whatever its mantissa. -/
def toInt64? (d : Decimal) : Option Int :=
  let n := d.normalize
  if 0 < n.scale ∨ n.scale < -18 then none
  else
    let v := n.mantissaAt 0
    if fitsInt64 v then some v else none

/-- The value truncated toward zero, as a signed 64-bit integer.  Refused when
the number is written with more than `maxExponent` fractional digits. -/
def truncToInt64? (d : Decimal) : Option Int :=
  if d.scale ≤ 0 then d.toInt64?
  else if maxExponent < d.scale then none
  else
    let v := d.mantissa.tdiv (Int.ofNat (powTen d.scale.toNat))
    if fitsInt64 v then some v else none

/-- The value as an unsigned 32-bit integer. -/
def toUInt32? (d : Decimal) : Option Nat :=
  match d.toInt64? with
  | some v => if 0 ≤ v ∧ v ≤ 4294967295 then some v.toNat else none
  | none => none

end Decimal

end LazyExpr
