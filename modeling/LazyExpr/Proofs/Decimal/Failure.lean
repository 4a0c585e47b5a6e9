/-
LazyExpr/Proofs/Decimal/Failure.lean

How computations with decimals fail.

A literal that cannot be read is reported with its text.  Nothing else fails in that way
(`Computes`): a quotient, a remainder, a root, a power or a trigonometric function has a
zero divisor, an argument outside of its domain, or a power of ten that is out of range.
-/
import LazyExpr.Decimal.Function

namespace LazyExpr.Decimal

/-- If there is no result, it is not for want of a literal. -/
def Computes {α : Type} (x : Except Error α) : Prop := ∀ text, x ≠ .error (.malformed text)

namespace Computes

variable {α β : Type}

theorem ok (a : α) : Computes (.ok a) := by
  intro text h
  cases h

theorem bind {x : Except Error α} {f : α → Except Error β} (hx : Computes x)
    (hf : ∀ a, Computes (f a)) : Computes (x >>= f) := by
  rcases x with e | a
  · intro text h
    exact hx text (congrArg Except.error (Except.error.inj h))
  · exact hf a

theorem ite {P : Prop} [Decidable P] {x y : Except Error α} (hx : Computes x)
    (hy : Computes y) : Computes (if P then x else y) := by
  split
  · exact hx
  · exact hy

theorem divisionByZero : Computes (.error .divisionByZero : Except Error α) := by
  intro text h
  cases h

theorem moduloByZero : Computes (.error .moduloByZero : Except Error α) := by
  intro text h
  cases h

theorem undefined (operation reason : String) :
    Computes (.error (.undefined operation reason) : Except Error α) := by
  intro text h
  cases h

theorem overflow (operation : String) :
    Computes (.error (.overflow operation) : Except Error α) := by
  intro text h
  cases h

end Computes

open Computes

theorem computes_tenPow (e : Int) (operation : String) : Computes (tenPow e operation) :=
  .ite (ok _) (overflow _)

theorem computes_div (a b : Decimal) : Computes (a.div b) := by
  refine .ite divisionByZero ?_
  refine .bind (.ite (ok _) (overflow _)) fun shift => .ite ?_ ?_
  · exact (computes_tenPow _ _).bind fun p => ok _
  · exact (computes_tenPow _ _).bind fun p => ok _

theorem computes_rem (a b : Decimal) : Computes (a.rem b) := by
  refine .ite moduloByZero ?_
  refine (computes_tenPow _ _).bind fun pa => ?_
  exact (computes_tenPow _ _).bind fun pb => ok _

theorem computes_sqrt (d : Decimal) : Computes d.sqrt := by
  refine .ite (undefined _ _) ?_
  refine (computes_tenPow _ _).bind fun p => .ite (ok _) ?_
  exact (computes_tenPow _ _).bind fun divisor => ok _

theorem computes_powNat (d : Decimal) (n : Nat) : Computes (d.powNat n) :=
  .ite (ok _) (overflow _)

theorem computes_ofDecimal (d : Decimal) : Computes (FixedPoint.ofDecimal d) := by
  refine .ite ?_ ?_
  · exact (computes_tenPow _ _).bind fun p => ok _
  · exact (computes_tenPow _ _).bind fun p => ok _

theorem computes_ln (d : Decimal) : Computes (FixedPoint.ln d) := by
  refine .ite ?_ ?_
  · exact (computes_tenPow _ _).bind fun p => ok _
  · exact (computes_tenPow _ _).bind fun p => ok _

theorem computes_exp (t : Int) : Computes (FixedPoint.exp t) :=
  .ite (overflow _) (.ite (ok _) (.ite (ok _) (ok _)))

theorem computes_powReal (base exponent : Decimal) : Computes (base.powReal exponent) := by
  refine .ite (.ite divisionByZero (ok _)) (.ite (undefined _ _) ?_)
  refine (computes_ln _).bind fun log => ?_
  refine (computes_ofDecimal _).bind fun y => ?_
  exact (computes_exp _).bind fun result => ok _

theorem computes_pow (base exponent : Decimal) : Computes (base.pow exponent) := by
  unfold pow
  split
  · exact computes_powReal base exponent
  · refine .ite (computes_powNat _ _) (.ite (.ite divisionByZero ?_) (computes_powReal _ _))
    exact (computes_powNat _ _).bind fun p => computes_div one p

theorem computes_sin (d : Decimal) : Computes d.sin :=
  (computes_ofDecimal d).bind fun _ => ok _

theorem computes_cos (d : Decimal) : Computes d.cos :=
  (computes_ofDecimal d).bind fun _ => ok _

theorem computes_tan (d : Decimal) : Computes d.tan :=
  (computes_ofDecimal d).bind fun _ => .ite (undefined _ _) (ok _)

end LazyExpr.Decimal
