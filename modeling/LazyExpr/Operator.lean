/-
LazyExpr/Operator.lean

The closed sets of words of the language: binary operators, the primitive
functions, and whether a binding may be replaced.
-/
namespace LazyExpr

/-- The operators between two operands. -/
inductive BinaryOp where
  | add | sub | mul | div | mod | pow
  | eq | lt | le | gt | ge
  | and | or
  | range
deriving DecidableEq, Inhabited, Repr

namespace BinaryOp

def all : List BinaryOp :=
  [add, sub, mul, div, mod, pow, eq, lt, le, gt, ge, and, or, range]

/-- How the operator is written. -/
def symbol : BinaryOp → String
  | add => "+"
  | sub => "-"
  | mul => "*"
  | div => "/"
  | mod => "%"
  | pow => "^"
  | eq => "="
  | lt => "<"
  | le => "<="
  | gt => ">"
  | ge => ">="
  | and => "&&"
  | or => "||"
  | range => "to"

def ofSymbol? (text : String) : Option BinaryOp := all.find? (·.symbol == text)

end BinaryOp

/-- The functions that the machine itself provides. -/
inductive Intrinsic where
  | print | println | sqrt | sin | cos | tan
deriving DecidableEq, Inhabited, Repr

namespace Intrinsic

def all : List Intrinsic := [print, println, sqrt, sin, cos, tan]

/-- The name under which the function is bound. -/
def name : Intrinsic → String
  | print => "print"
  | println => "println"
  | sqrt => "sqrt"
  | sin => "sin"
  | cos => "cos"
  | tan => "tan"

def ofName? (text : String) : Option Intrinsic := all.find? (·.name == text)

end Intrinsic

/-- Whether a binding may be replaced by a later assignment. -/
inductive Mutability where
  | mutable | immutable
deriving DecidableEq, Inhabited, Repr

end LazyExpr
