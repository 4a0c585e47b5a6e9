/-
LazyExpr/Decimal/Text.lean

Number literals and the printed form of decimals.

A literal is a base and an optional exponent after the first `e` or `E`.  The
base is a signed run of digits in which one point may stand and underscores are
ignored; the characters after the point are counted as fractional digits.  The
printed form is plain positional notation without trailing zeros, so it depends
on the numeric value alone.
-/
import LazyExpr.Decimal.Basic

namespace LazyExpr.Decimal

/-! ### Reading -/

/-- The value of a run of digit characters, read from the left. -/
def digitsValue (cs : List Char) : Nat :=
  cs.foldl (fun n c => 10 * n + (c.toNat - '0'.toNat)) 0

/-- Whether `n` is in the range of a signed 128-bit word. -/
def fitsInt128 (n : Int) : Bool :=
  decide (-170141183460469231731687303715884105728 ≤ n ∧
    n ≤ 170141183460469231731687303715884105727)

/-- One optional sign and at least one digit, within 128 signed bits. -/
def readExponent (cs : List Char) : Option Int :=
  let (negative, digits) := match cs with
    | '-' :: r => (true, r)
    | '+' :: r => (false, r)
    | r => (false, r)
  if digits.isEmpty || !digits.all Char.isDigit then none
  else
    let n : Int := digitsValue digits
    let v := if negative then -n else n
    if fitsInt128 v then some v else none

/-- Digits and underscores, the first character a digit. -/
def readNatural (cs : List Char) : Option Nat :=
  if cs.isEmpty || cs.head? == some '_' || !cs.all (fun c => c.isDigit || c == '_') then none
  else some (digitsValue (cs.filter (· != '_')))

/-- A leading plus is dropped unless another one follows. -/
def dropPlus : List Char → List Char
  | '+' :: '+' :: r => '+' :: '+' :: r
  | '+' :: r => r
  | cs => cs

/-- A natural number with an optional sign.  A minus is not followed by a plus. -/
def readMantissa : List Char → Option Int
  | '-' :: '+' :: _ => none
  | '-' :: r => (readNatural (dropPlus r)).map fun n => -(n : Int)
  | cs => (readNatural (dropPlus cs)).map Int.ofNat

/-- The base without its first point, and the number of fractional digits.  A
point at the very end marks no fraction. -/
def splitPoint (base : List Char) : List Char × Nat :=
  match base.span (· != '.') with
  | (whole, _ :: fraction) => (whole ++ fraction, (fraction.filter (· != '_')).length)
  | (whole, []) => (whole, 0)

/-- Whether `c` separates base and exponent. -/
def isExponentMark (c : Char) : Bool := c == 'e' || c == 'E'

/-- The decimal that a literal denotes.  The scale is the number of fractional
digits less the exponent, and is kept as written. -/
def read? (text : List Char) : Option Decimal := do
  let (base, rest) := text.span (fun c => !isExponentMark c)
  let exponent ← match rest with
    | [] => some 0
    | _ :: e => readExponent e
  if base.isEmpty then none
  else
    let (digits, decimals) := splitPoint base
    let scale := (decimals : Int) - exponent
    if fitsInt64 scale then (readMantissa digits).map (⟨·, scale⟩) else none

/-- Read a number literal. -/
def ofText (text : String) : Except Error Decimal :=
  match read? text.toList with
  | some d => .ok d
  | none => .error (.malformed text)

/-! ### Printing -/

/-- Positional notation of `m * 10 ^ (-s)` for digits `m`. -/
def positional (digits : List Char) (s : Int) : List Char :=
  if s ≤ 0 then digits ++ List.replicate (-s).toNat '0'
  else
    let places := s.toNat
    if places < digits.length then
      let whole := digits.length - places
      digits.take whole ++ '.' :: digits.drop whole
    else '0' :: '.' :: (List.replicate (places - digits.length) '0' ++ digits)

/-- The printed form as characters. -/
def toChars (d : Decimal) : List Char :=
  let n := d.normalize
  let text := positional (Nat.toDigits 10 n.mantissa.natAbs) n.scale
  if n.isNegative then '-' :: text else text

/-- The printed form: a minus sign if negative, and plain notation with no
trailing zeros after the point. -/
def toText (d : Decimal) : String := String.ofList d.toChars

instance : ToString Decimal := ⟨toText⟩

end LazyExpr.Decimal
