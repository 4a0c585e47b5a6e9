/-
LazyExpr/Fault.lean

What can go wrong while a program runs, and how it is reported.

A fault is a cause with its details, the text that is shown for it, the span of
the innermost expression that failed, and the calls that were active there.  The
text is written when the fault arises, and the wording of each cause is in
`Cause.message` alone.  Span and backtrace are attached on the way out and kept
once set, so the innermost ones remain.
-/
import LazyExpr.Decimal.Basic
import LazyExpr.Operator
import LazyExpr.Span

namespace LazyExpr

/-! ### Causes -/

/-- Why an evaluation failed. -/
inductive Cause where
  /-- The program is not well formed. -/
  | illFormed (message : String)
  | divisionByZero
  | moduloByZero
  /-- An operation is not defined for its argument. -/
  | outsideDomain (operation reason : String)
  | operatorMismatch (op : BinaryOp) (left right : String)
  | typeMismatch (expected got : String)
  | undefinedVariable (name : String)
  | undefinedFunction (name : String)
  | undefinedField (field typeName : String)
  | indexOutOfBounds (index : Int) (length : Nat)
  | immutableBinding (name : String)
  | undefinedType (name : String)
  | undefinedVariant (typeName variant : String)
  | constructorMismatch (typeName variant : String) (missing unexpected : List String)
  | invalidDeclaration (typeName reason : String)
  | arityMismatch (name : String) (expected got : Nat)
  /-- More calls than the limit would be active. -/
  | recursionLimit (limit : Nat)
  /-- A cause without details of its own. -/
  | other (message : String)
deriving DecidableEq, Inhabited, Repr

namespace Cause

/-- `parameter`, in the number that fits `n`. -/
def parameterWord (n : Nat) : String := if n == 1 then "parameter" else "parameters"

/-- A clause of a message that lists `names`, left out when there are none. -/
def listClause (label : String) (names : List String) : String :=
  if names.isEmpty then "" else "; " ++ label ++ ": " ++ ", ".intercalate names

/-- The text shown for a cause. -/
def message : Cause → String
  | illFormed text => "syntax error: " ++ text
  | divisionByZero => "division by zero"
  | moduloByZero => "modulo by zero"
  | outsideDomain operation reason => operation ++ " is undefined: " ++ reason
  | operatorMismatch op left right =>
    "operator `" ++ op.symbol ++ "` cannot be applied to " ++ left ++ " and " ++ right
  | typeMismatch expected got => "type mismatch: expected " ++ expected ++ ", got " ++ got
  | undefinedVariable name => "undefined variable: " ++ name
  | undefinedFunction name => "undefined function: " ++ name
  | undefinedField field typeName => "no field " ++ field ++ " on " ++ typeName
  | indexOutOfBounds index length =>
    "index " ++ toString index ++ " out of bounds for list of length " ++ toString length
  | immutableBinding name => "cannot assign to immutable variable: " ++ name
  | undefinedType name => "undefined data type: " ++ name
  | undefinedVariant typeName variant =>
    "data type " ++ typeName ++ " has no variant " ++ variant
  | constructorMismatch typeName variant missing unexpected =>
    "constructor " ++ typeName ++ "." ++ variant ++ " field mismatch" ++
      listClause "missing" missing ++ listClause "unexpected" unexpected
  | invalidDeclaration typeName reason =>
    "invalid declaration of " ++ typeName ++ ": " ++ reason
  | arityMismatch name expected got =>
    "you gave " ++ toString got ++ " " ++ parameterWord got ++ ", function " ++
      (if name.isEmpty then "" else name ++ " ") ++
      "requires " ++ toString expected ++ " " ++ parameterWord expected
  | recursionLimit limit =>
    "maximum recursion depth exceeded (limit: " ++ toString limit ++ ")"
  | other text => text

/-- The cause that a failed decimal operation amounts to. -/
def ofDecimalError : Decimal.Error → Cause
  | .divisionByZero => divisionByZero
  | .moduloByZero => moduloByZero
  | .undefined operation reason => outsideDomain operation reason
  | .overflow operation => outsideDomain operation "exponent out of range"
  | .malformed text => other (Decimal.Error.message (.malformed text))

end Cause

/-! ### Backtraces -/

/-- A call in a backtrace: the function's name and where it was called. -/
structure TraceFrame where
  name : String
  span : Option Span
deriving DecidableEq, Inhabited, Repr

/-- The calls that were active, the innermost first. -/
structure Backtrace where
  frames : List TraceFrame
deriving DecidableEq, Inhabited, Repr

namespace Backtrace

def isEmpty (b : Backtrace) : Bool := b.frames.isEmpty

def length (b : Backtrace) : Nat := b.frames.length

/-- One line of the printed form, numbered from the innermost call. -/
def frameLine (i : Nat) (f : TraceFrame) : String :=
  "  " ++ toString i ++ ": " ++ f.name ++
    (match f.span with
     | some s => " at " ++ s.toText
     | none => "") ++ "\n"

/-- A heading and a line for each call; nothing for an empty backtrace. -/
def toText (b : Backtrace) : String :=
  if b.isEmpty then ""
  else "stack backtrace:\n" ++ String.join (b.frames.mapIdx frameLine)

end Backtrace

/-! ### Faults -/

/-- A cause with the place where it arose. -/
structure Fault where
  cause : Cause
  message : String
  span : Option Span
  backtrace : Option Backtrace
deriving DecidableEq, Inhabited, Repr

namespace Fault

/-- A fault of which only the cause is known. -/
def ofCause (cause : Cause) : Fault := ⟨cause, cause.message, none, none⟩

/-- Attach a span unless a more precise one is set. -/
def withSpan (f : Fault) (span : Span) : Fault :=
  { f with span := f.span.or (some span) }

/-- Attach the span of a node, if the node has one. -/
def placedAt (f : Fault) (span : Span) : Fault :=
  if span.isUnlocated then f else f.withSpan span

@[simp] theorem cause_placedAt (f : Fault) (span : Span) : (f.placedAt span).cause = f.cause := by
  unfold placedAt withSpan
  split <;> rfl

@[simp] theorem message_placedAt (f : Fault) (span : Span) :
    (f.placedAt span).message = f.message := by
  unfold placedAt withSpan
  split <;> rfl

/-- Attach a backtrace unless one was taken deeper in the calls. -/
def withBacktrace (f : Fault) (backtrace : Backtrace) : Fault :=
  { f with backtrace := f.backtrace.or (some backtrace) }

/-- The message with the place, if it is known. -/
def toText (f : Fault) : String :=
  match f.span with
  | some s => f.message ++ " at " ++ s.toText
  | none => f.message

end Fault

end LazyExpr
