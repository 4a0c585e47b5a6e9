/-
LazyExpr/Equality.lean

Equality of values, as the language has it.

Two lists are equal when their elements are, two data values when they have the
same type and variant and equal fields; elements and fields are forced as far as
needed, the left one first, up to the first difference.  A list or an instance
equals itself without anything being forced.

Forcing may bring up new values without end, so a comparison is given a bound on
the depth to which it goes.
-/
import LazyExpr.Machine

namespace LazyExpr

namespace Equality

variable (force : Thunk → Eval Value) (equal : Value → Value → Eval Bool)

/-- Whether all pairs of thunks have equal values, from left to right. -/
def allPairs : List (Thunk × Thunk) → Eval Bool
  | [] => return true
  | (x, y) :: rest => do
    let a ← force x
    let b ← force y
    if ← equal a b then allPairs rest else return false

/-- Whether two lists of thunks have the same length and equal values. -/
def items (xs ys : List Thunk) : Eval Bool :=
  if xs.length = ys.length then allPairs force equal (xs.zip ys) else return false

/-- Whether all pairs of fields have the same name and equal values. -/
def fieldPairs : List ((Name × Thunk) × (Name × Thunk)) → Eval Bool
  | [] => return true
  | ((n, x), (m, y)) :: rest =>
    if n = m then do
      let a ← force x
      let b ← force y
      if ← equal a b then fieldPairs rest else return false
    else return false

/-- Whether two instances have the same type and variant and equal fields. -/
def instances (d e : Instance) : Eval Bool :=
  if d.type = e.type ∧ d.variant = e.variant ∧ d.fields.length = e.fields.length then
    fieldPairs force equal (d.fields.zip e.fields)
  else return false

end Equality

/-- Whether two values are equal, going `depth` levels down at most.  Values of
different kinds are unequal. -/
def Value.equal (force : Thunk → Eval Value) : (depth : Nat) → Value → Value → Eval Bool
  | _, .number a, .number b => return a.sameValue b
  | _, .bool a, .bool b => return a == b
  | _, .char a, .char b => return a == b
  | _, .function f, .function g => return f == g
  | _, .void, .void => return true
  | depth, .list i xs, .list j ys =>
    if i = j then return true
    else match depth with
      | 0 => throw .outOfReach
      | depth + 1 => Equality.items force (Value.equal force depth) xs ys
  | depth, .data a, .data b =>
    if a = b then return true
    else match depth with
      | 0 => throw .outOfReach
      | depth + 1 => do
        let d ← Eval.instanceAt a
        let e ← Eval.instanceAt b
        Equality.instances force (Value.equal force depth) d e
  | _, _, _ => return false

end LazyExpr
