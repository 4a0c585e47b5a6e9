/-
LazyExpr/Span.lean

Where in the source text an expression stands.
-/
namespace LazyExpr

/-- The range `start..stop` of source positions. -/
structure Span where
  start : Nat
  stop : Nat
deriving DecidableEq, Inhabited, Repr

namespace Span

/-- The span of an expression that has no place in a source text. -/
def unlocated : Span := ⟨0, 0⟩

def isUnlocated (s : Span) : Bool := s == unlocated

def toText (s : Span) : String := toString s.start ++ ".." ++ toString s.stop

end Span

end LazyExpr
