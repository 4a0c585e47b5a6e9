/-
LazyExpr/Session.lean

Sessions: programs run one after another over one program text, one store and
one set of declared types.

Every run starts from the global scope with no active calls and a sink of its
own.  What it did to store and types is kept, whether it succeeded or not.
-/
import LazyExpr.Evaluation
import LazyExpr.Expr
import LazyExpr.Prelude

namespace LazyExpr

/-- What a run gave and what it printed. -/
structure Outcome (α : Type) where
  result : Except Stop α
  output : String

/-- A session between two runs. -/
structure Session where
  program : Program
  store : Store
  types : Types
  globals : ScopeId
  /-- How many calls may be active. -/
  limit : Nat
deriving Inhabited

namespace Session

/-- Reach for ordinary use, which no memory holds. -/
def defaultReach : Nat := 1000000000

/-- A session whose global scope has the given bindings. -/
def withBindings (program : Program) (bs : Bindings) (limit : Nat) : Session :=
  let (globals, store) := Store.empty.addScope bs
  ⟨program, store, Types.empty, globals, limit⟩

/-- A session with nothing bound. -/
def bare (limit : Nat) : Session := withBindings Program.empty Bindings.empty limit

/-- A session with the prelude bound. -/
def withPrelude (limit : Nat) : Session :=
  let (program, bs) := Prelude.install Program.empty
  withBindings program bs limit

/-! ### Adding expressions -/

/-- Add an expression to the program. -/
def add (s : Session) (e : Expr) : Except Decimal.Error NodeId × Session :=
  match e.build s.program with
  | .ok id program => (.ok id, { s with program })
  | .error err program => (.error err, { s with program })

/-- Add expressions to the program, up to the first malformed literal. -/
def addAll (s : Session) (es : List Expr) : Except Decimal.Error (List NodeId) × Session :=
  match Expr.buildAll es s.program with
  | .ok ids program => (.ok ids, { s with program })
  | .error err program => (.error err, { s with program })

/-! ### Running -/

/-- A machine in the global scope with no active calls. -/
def machine (s : Session) (sink : Sink) : Machine :=
  ⟨s.store, s.types, sink, s.globals, CallStack.empty s.limit⟩

/-- Run a step and keep what it did. -/
def perform {α : Type} (s : Session) (sink : Sink) (x : Eval α) : Outcome α × Session :=
  match x (s.machine sink) with
  | .ok a m => (⟨.ok a, m.sink.text⟩, { s with store := m.store, types := m.types })
  | .error e m => (⟨.error e, m.sink.text⟩, { s with store := m.store, types := m.types })

/-- As many node evaluations as can be nested in the active calls: in each of
them, and outside of all, every node of the program once. -/
def fuel (s : Session) : Nat := (s.limit + 1) * s.program.size

/-- The context of a run. -/
def context (s : Session) (reach : Nat) : Context := s.program.context s.fuel reach s.fuel

/-- Evaluate nodes one after another. -/
def run (s : Session) (reach : Nat) (sink : Sink) (roots : List NodeId) : Outcome Value × Session :=
  s.perform sink (LazyExpr.run (s.context reach) roots)

/-- The text of a value. -/
def display (s : Session) (reach : Nat) (v : Value) : Outcome String × Session :=
  s.perform Sink.emptyBuffer ((s.context reach).display v)

/-- Whether two values are equal in the language. -/
def equal (s : Session) (reach : Nat) (v w : Value) : Outcome Bool × Session :=
  let c := s.context reach
  s.perform Sink.emptyBuffer (v.equal c.force c.reach w)

/-- The result of an operator on two values. -/
def apply (s : Session) (reach : Nat) (op : BinaryOp) (v w : Value) : Outcome Value × Session :=
  let c := s.context reach
  s.perform Sink.emptyBuffer (op.apply c.force c.reach v w)

/-! ### Looking -/

/-- The global binding of a name. -/
def binding? (s : Session) (name : Name) : Option Binding :=
  (s.store.bindings s.globals).find? name

end Session

end LazyExpr
