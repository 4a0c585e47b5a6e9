/-
LazyExpr/Prelude.lean

The primitive functions as ordinary ones: each is bound under its name to a
function of one parameter whose body applies the primitive to it, so that calls
of it obey the rules of all calls.
-/
import LazyExpr.Expr
import LazyExpr.Store

namespace LazyExpr

namespace Prelude

variable {σ : Type} [Storage σ]

/-- The parameter of every function of the prelude. -/
def parameter : String := "value"

/-- Add the body and the name of a primitive function to a storage. -/
def function (param : Name) (primitive : Intrinsic) : Build σ Function := do
  let body ← Expr.build (.intrinsic primitive [.ident parameter])
  let name ← Build.name primitive.name
  return ⟨name, [param], body⟩

/-- Add all primitive functions to a storage. -/
def functions : Build σ (List Function) := do
  let param ← Build.name parameter
  Intrinsic.all.mapM (function param)

/-- The bindings of functions under their own names. -/
def bindings (fs : List Function) : Bindings :=
  fs.foldl (fun bs f => bs.insert f.name ⟨.function f, .mutable⟩) Bindings.empty

/-- A program and the bindings of the prelude in it. -/
def install (p : Program) : Program × Bindings :=
  match functions p with
  | .ok fs p => (p, bindings fs)
  | .error _ p => (p, Bindings.empty)

end Prelude

end LazyExpr
