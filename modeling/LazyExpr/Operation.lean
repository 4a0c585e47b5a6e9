/-
LazyExpr/Operation.lean

What the binary operators do, by the kinds of their operands.

Numbers have arithmetic, order and ranges; characters can be shifted by numbers
and compared; truth values have `&&` and `||`, of which both operands are
evaluated; lists can be joined, compared, and repeated by a number.  Any other
pair of operands is a mismatch.
-/
import LazyExpr.Decimal.Function
import LazyExpr.Equality

namespace LazyExpr

namespace Operation

/-! ### Order -/

/-- The truth of a comparison, for the operators that compare. -/
def comparison? (op : BinaryOp) (o : Ordering) : Option Bool :=
  match op with
  | .eq => some (o == .eq)
  | .lt => some (o == .lt)
  | .le => some (o != .gt)
  | .gt => some (o == .gt)
  | .ge => some (o != .lt)
  | _ => none

/-- The fault of an operator between kinds of values it is not for. -/
def mismatch (op : BinaryOp) (left right : Value) : Cause :=
  .operatorMismatch op left.typeName right.typeName

/-! ### Ranges -/

/-- A natural number that the absolute value of `d` does not exceed. -/
def magnitudeBound (d : Decimal) : Nat :=
  let m := d.mantissa.natAbs
  if d.scale ≤ 0 then m * Decimal.powTen (-d.scale).toNat
  else if Decimal.digitCount m ≤ d.scale then 1
  else m / Decimal.powTen d.scale.toNat + 1

/-- The numbers from `current` in steps of one, while they are at most `last`
and `limit` is not used up. -/
def countUp (last : Decimal) : (limit : Nat) → (current : Decimal) → List Decimal
  | 0, _ => []
  | limit + 1, current =>
    if current.atMost last then current :: countUp last limit (current + Decimal.one) else []

/-- The numbers `first`, `first + 1`, … up to `last`.  The distance of the ends,
and so the number of steps, is below the bound on their magnitudes. -/
def range (first last : Decimal) : List Decimal :=
  if first.atMost last then
    countUp last (magnitudeBound first + magnitudeBound last + 1) first
  else []

/-! ### Characters -/

def charCode (c : Char) : Decimal := Decimal.ofInt c.toNat

/-- The character with a code. -/
def charOfCode (code : Decimal) : Except Cause Char :=
  let invalid : Cause :=
    .outsideDomain "character arithmetic" (code.toText ++ " is not a character code")
  match code.toUInt32? with
  | some n => if Nat.isValidChar n then .ok (Char.ofNat n) else .error invalid
  | none => .error invalid

/-! ### Repetition -/

/-- What `count` times a list of `length` elements is made of: as many whole
copies as the integer part of the magnitude says, then so many elements of one
more copy as its fraction says.  The elements are counted in 64 bits, with a sign
for the list and without one for the result. -/
def repeatCounts (length : Nat) (count : Decimal) : Except Cause (Nat × Nat) :=
  let magnitude := count.abs
  let tooLarge : Cause :=
    .outsideDomain "list repetition" ("cannot repeat a list " ++ magnitude.toText ++ " times")
  match magnitude.truncToInt64? with
  | none => .error tooLarge
  | some whole =>
    let copies := whole.toNat
    let fraction := magnitude - Decimal.ofInt whole
    let part := ((fraction * Decimal.ofInt length).truncToInt64?.getD 0).toNat
    let part := min part length
    if 9223372036854775808 ≤ length ∨ 18446744073709551616 ≤ copies * length + part then
      .error tooLarge
    else .ok (copies, part)

/-- How many elements the list `count` times over has. -/
def repeatLength (length : Nat) (count : Decimal) : Except Cause Nat := do
  let (copies, part) ← repeatCounts length count
  return copies * length + part

/-- The list `count` times over.  A negative count reverses the result. -/
def repeatItems {α : Type} (items : List α) (count : Decimal) : Except Cause (List α) := do
  let (copies, part) ← repeatCounts items.length count
  let result :=
    if items.isEmpty then []
    else (List.replicate copies items).flatten ++ items.take part
  return if count.isNegative then result.reverse else result

/-! ### Operators by kind of operands -/

def numbers (op : BinaryOp) (a b : Decimal) : Eval Value :=
  match op with
  | .add => return .number (a + b)
  | .sub => return .number (a - b)
  | .mul => return .number (a * b)
  | .div => Eval.decimal (a.div b)
  | .mod => Eval.decimal (a.rem b)
  | .pow => Eval.decimal (a.pow b)
  | .range => Eval.newForced ((range a b).map .number)
  | _ =>
    match comparison? op (a.compareValue b) with
    | some t => return .bool t
    | none => Eval.raise (mismatch op (.number a) (.number b))

def bools (op : BinaryOp) (a b : Bool) : Eval Value :=
  match op with
  | .and => return .bool (a && b)
  | .or => return .bool (a || b)
  | _ => Eval.raise (mismatch op (.bool a) (.bool b))

def numberChar (op : BinaryOp) (n : Decimal) (c : Char) : Eval Value :=
  match op with
  | .add => return .char (← Eval.check (charOfCode (n + charCode c)))
  | .sub => return .char (← Eval.check (charOfCode (n - charCode c)))
  | _ => Eval.raise (mismatch op (.number n) (.char c))

def charNumber (op : BinaryOp) (c : Char) (n : Decimal) : Eval Value :=
  match op with
  | .add => return .char (← Eval.check (charOfCode (charCode c + n)))
  | .sub => return .char (← Eval.check (charOfCode (charCode c - n)))
  | _ => Eval.raise (mismatch op (.char c) (.number n))

def chars (op : BinaryOp) (a b : Char) : Eval Value :=
  match op with
  | .sub => return .number (charCode a - charCode b)
  | _ =>
    match comparison? op (compare a.toNat b.toNat) with
    | some t => return .bool t
    | none => Eval.raise (mismatch op (.char a) (.char b))

/-- Room is asked for before anything is built. -/
def repetition (items : List Thunk) (count : Decimal) : Eval Value := do
  Eval.reserve (← Eval.check (repeatLength items.length count))
  Eval.newList (← Eval.check (repeatItems items count))

def concatenation (left right : List Thunk) : Eval Value := do
  Eval.reserve (left.length + right.length)
  Eval.newList (left ++ right)

end Operation

/-- The result of an operator.  Only the comparison of two lists forces
anything, and it compares the elements even if the lists are one and the
same. -/
def BinaryOp.apply (force : Thunk → Eval Value) (depth : Nat) (op : BinaryOp)
    (left right : Value) : Eval Value :=
  match left, right with
  | .number a, .number b => Operation.numbers op a b
  | .bool a, .bool b => Operation.bools op a b
  | .number n, .char c => Operation.numberChar op n c
  | .char c, .number n => Operation.charNumber op c n
  | .char a, .char b => Operation.chars op a b
  | .list i xs, .list j ys =>
    match op with
    | .add => Operation.concatenation xs ys
    | .eq => return .bool (← Equality.items force (Value.equal force depth) xs ys)
    | _ => Eval.raise (Operation.mismatch op (.list i xs) (.list j ys))
  | .number n, .list i items =>
    match op with
    | .mul => Operation.repetition items n
    | _ => Eval.raise (Operation.mismatch op (.number n) (.list i items))
  | .list i items, .number n =>
    match op with
    | .mul => Operation.repetition items n
    | _ => Eval.raise (Operation.mismatch op (.list i items) (.number n))
  | _, _ => Eval.raise (Operation.mismatch op left right)

end LazyExpr
