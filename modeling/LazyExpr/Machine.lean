/-
LazyExpr/Machine.lean

The state of an evaluation and the steps that read and change it.

A machine holds the store, the declared types, the sink, the scope in which
expressions are evaluated now, and the active calls.  An evaluation step takes a
machine and gives a machine back whether it succeeds or not: what a program did
before a fault stays done.  `inScope` and `inFrame` change scope and calls for
the length of a step and put them back on every way out.

Besides faults there are other ways to stop, which are not part of the language:
the evaluation was given too little fuel or too little reach, the program refers
to a node that it does not have, a list would have more elements than can be
addressed, or a call is left while none is active.
-/
import LazyExpr.CallStack
import LazyExpr.Program
import LazyExpr.Sink
import LazyExpr.Store

namespace LazyExpr

/-- The state of an evaluation. -/
structure Machine where
  store : Store
  types : Types
  sink : Sink
  /-- The scope in which expressions are evaluated now. -/
  scope : ScopeId
  calls : CallStack
deriving Inhabited

/-- Why an evaluation gave no value. -/
inductive Stop where
  | fault (f : Fault)
  /-- More node evaluations would be nested in each other than the fuel allows. -/
  | outOfFuel
  /-- More suspended work would be nested than the reach allows. -/
  | outOfReach
  /-- The program has no such node or number. -/
  | dangling
  /-- A list would have more elements than can be addressed. -/
  | overCapacity
  /-- A call is left while none is active. -/
  | noFrame
deriving DecidableEq, Inhabited, Repr

/-- Change the fault, if it is one. -/
def Stop.mapFault (f : Fault → Fault) : Stop → Stop
  | .fault x => .fault (f x)
  | e => e

theorem Stop.mapFault_outOfFuel {e : Stop} (f : Fault → Fault) (h : e = .outOfFuel) :
    e.mapFault f = .outOfFuel := by
  rw [h]
  rfl

theorem Stop.mapFault_outOfReach {e : Stop} (f : Fault → Fault) (h : e = .outOfReach) :
    e.mapFault f = .outOfReach := by
  rw [h]
  rfl

/-- A step of an evaluation. -/
abbrev Eval := EStateM Stop Machine

namespace Eval

/-! ### Ways to stop -/

def raise {α : Type} (cause : Cause) : Eval α := throw (.fault (.ofCause cause))

/-- The result of a check, or the fault it found. -/
def check {α : Type} : Except Cause α → Eval α
  | .ok a => pure a
  | .error cause => raise cause

/-- The result of a decimal operation, or the fault it amounts to. -/
def decimal : Except Decimal.Error Decimal → Eval Value
  | .ok d => pure (.number d)
  | .error e => raise (.ofDecimalError e)

/-- The content of a reference into the program. -/
def present {α : Type} : Option α → Eval α
  | some a => pure a
  | none => throw .dangling

/-! ### Bindings -/

/-- The binding of a name in the current scope. -/
def lookup? (name : Name) : Eval (Option Binding) := do
  let m ← get
  return (m.store.bindings m.scope).find? name

/-- Bind a name in the current scope; `false` if its binding is immutable. -/
def assign (name : Name) (b : Binding) : Eval Bool := modifyGet fun m =>
  match m.store.assign? m.scope name b with
  | some store => (true, { m with store })
  | none => (false, m)

/-- Only an immutable binding refuses an assignment, and then nothing changes. -/
theorem assign_apply (name : Name) (b : Binding) (m : Machine) :
    assign name b m =
      if (m.store.bindings m.scope).isImmutable name then .ok false m
      else .ok true { m with store := m.store.define m.scope name b } := by
  have hassign : assign name b m = match m.store.assign? m.scope name b with
      | some store => .ok true { m with store }
      | none => .ok false m := by
    show (match (match m.store.assign? m.scope name b with
        | some store => (true, { m with store })
        | none => (false, m)) with
      | (a, s) => EStateM.Result.ok a s) = _
    cases m.store.assign? m.scope name b <;> rfl
  rw [hassign, Store.assign?, Bindings.assign?]
  cases (m.store.bindings m.scope).isImmutable name <;> rfl

/-- Bind a name in some scope, whatever its binding was. -/
def define (scope : ScopeId) (name : Name) (b : Binding) : Eval Unit :=
  modify fun m => { m with store := m.store.define scope name b }

/-- Whether a name is bound in some scope. -/
def isBound (scope : ScopeId) (name : Name) : Eval Bool := do
  return ((← get).store.bindings scope).contains name

/-- A new scope that is a copy of the current one. -/
def copyScope : Eval ScopeId := modifyGet fun m =>
  let (id, store) := m.store.copyScope m.scope
  (id, { m with store })

/-! ### Lists, instances, types and output -/

/-- How many elements a list has room for at most: an element takes 40 bytes,
and no block of memory has `2 ^ 63`. -/
def listCapacity : Nat := 9223372036854775807 / 40

/-- Ask for room for a list that is built by an operator. -/
def reserve (length : Nat) : Eval Unit :=
  if length ≤ listCapacity then pure () else throw .overCapacity

/-- A new list. -/
def newList (items : List Thunk) : Eval Value := modifyGet fun m =>
  let (v, store) := m.store.addList items
  (v, { m with store })

/-- A new list of values. -/
def newForced (values : List Value) : Eval Value := newList (values.map .forced)

/-- A new data instance. -/
def newInstance (d : Instance) : Eval Value := modifyGet fun m =>
  let (id, store) := m.store.addInstance d
  (.data id, { m with store })

def instanceAt (id : InstanceId) : Eval Instance := do
  return (← get).store.instanceAt id

def setField (id : InstanceId) (name : Name) (t : Thunk) : Eval Unit :=
  modify fun m => { m with store := m.store.setField id name t }

def setTypes (types : Types) : Eval Unit := modify fun m => { m with types }

def write (text : String) : Eval Unit := modify fun m => { m with sink := m.sink.write text }

def writeLine (text : String) : Eval Unit :=
  modify fun m => { m with sink := m.sink.writeLine text }

/-! ### Scope, calls and place -/

/-- Run a step in another scope. -/
def inScope {α : Type} (scope : ScopeId) (x : Eval α) : Eval α := fun m =>
  let saved := m.scope
  match x { m with scope } with
  | .ok a m => .ok a { m with scope := saved }
  | .error e m => .error e { m with scope := saved }

/-- Leave the innermost call, which there has to be. -/
def popFrame : Eval Unit := fun m =>
  if m.calls.isEmpty then .error .noFrame m else .ok () { m with calls := m.calls.pop }

theorem popFrame_bind_apply {α : Type} (x : Unit → Eval α) (m : Machine) :
    (popFrame >>= x) m =
      if m.calls.isEmpty then .error .noFrame m else x () { m with calls := m.calls.pop } := by
  show EStateM.bind popFrame x m = _
  unfold EStateM.bind popFrame
  cases m.calls.isEmpty <;> rfl

/-- Run a step inside a call.  Faults take the active calls with them; so does
the refusal of a call that is one too many, which leaves the calls as they
are. -/
def inFrame {α : Type} (names : Names) (frame : Frame) (x : Eval α) : Eval α := fun m =>
  match m.calls.push frame with
  | .error cause => .error (.fault (m.calls.attach names (.ofCause cause))) m
  | .ok calls =>
    match x { m with calls } with
    | .ok a m => (do popFrame; return a : Eval α) m
    | .error e m => (do popFrame; throw (e.mapFault (m.calls.attach names)) : Eval α) m

section Frame

variable {α : Type} {frame : Frame} {x : Eval α} {m n : Machine} {calls : CallStack}

/-- A step that leaves the calls as it found them finds the one that it was run in. -/
theorem popFrame_bind_of_push {β : Type} (h : m.calls.push frame = .ok calls)
    (hn : n.calls = calls) (f : Unit → Eval β) :
    (popFrame >>= f) n = f () { n with calls := m.calls } := by
  rw [popFrame_bind_apply, hn, CallStack.isEmpty_of_push h, CallStack.pop_of_push h]
  rfl

theorem inFrame_of_ok {a : α} (names : Names) (h : m.calls.push frame = .ok calls)
    (hx : x { m with calls } = .ok a n) (hn : n.calls = calls) :
    inFrame names frame x m = .ok a { n with calls := m.calls } := by
  unfold inFrame
  simp only [h, hx]
  exact popFrame_bind_of_push h hn _

theorem inFrame_of_error {e : Stop} (names : Names) (h : m.calls.push frame = .ok calls)
    (hx : x { m with calls } = .error e n) (hn : n.calls = calls) :
    inFrame names frame x m =
      .error (e.mapFault (calls.attach names)) { n with calls := m.calls } := by
  unfold inFrame
  simp only [h, hx]
  rw [hn]
  exact popFrame_bind_of_push h hn _

end Frame

/-- Run a step for a node: faults without a place get the node's, if it has
one. -/
def locate {α : Type} (span : Span) (x : Eval α) : Eval α := fun m =>
  match x m with
  | .ok a m => .ok a m
  | .error e m => .error (e.mapFault (·.placedAt span)) m

end Eval

end LazyExpr
