/-
LazyExpr/Evaluation.lean

Evaluation of the nodes of a program.

`Context.evalKind` says what each kind of node does in terms of the evaluation
of other nodes, which is a part of the context; `evalWith` and `eval` tie the
knot.  Two numbers bound an evaluation.  The fuel is the number of node
evaluations that may be nested in each other between one suspended node and the
next, so it is spent on depth only, and not on length.  The reach is for what is
suspended: so many evaluations of suspended nodes may be nested in each other,
and so many levels down may a walk through a value go (a comparison, a printed
text, the return of a list from a call).

A call evaluates the body in a copy of the caller's scope.  The copy is made
before the arguments are evaluated, the arguments are evaluated in the caller's
scope, and the call is entered after them.  Lists that a call returns have their
elements forced before it is left.
-/
import LazyExpr.Display
import LazyExpr.Operation

namespace LazyExpr

/-- What the evaluation of a node depends on. -/
structure Context where
  program : Program
  /-- How many levels down a value is looked at. -/
  reach : Nat
  /-- The evaluation of another node, in the current scope. -/
  eval : NodeId → Eval Value
  /-- The evaluation of a node that was suspended, in the current scope. -/
  resume : NodeId → Eval Value

namespace Context

variable (c : Context)

def text (name : Name) : String := c.program.names.text name

def node (id : NodeId) : Eval Node := Eval.present (c.program.node? id)

/-- The value of a thunk.  A deferred one is evaluated in its own scope, each
time anew. -/
def force : Thunk → Eval Value
  | .forced v => return v
  | .deferred id scope => Eval.inScope scope (c.resume id)

/-! ### Lists -/

/-- A place in a list of length `length`, from the value of an index. -/
def position (index : Value) (length : Nat) : Except Cause (Fin length) :=
  match index with
  | .number n =>
    if n.isInteger then
      let raw := n.toInt64?.getD
        (if n.isNegative then -9223372036854775808 else 9223372036854775807)
      if h : 0 ≤ raw ∧ raw < length then .ok ⟨raw.toNat, by omega⟩
      else .error (.indexOutOfBounds raw length)
    else .error (.typeMismatch "integer index" n.toText)
  | v => .error (.typeMismatch "number" v.typeName)

/-- The elements of a value that has to be a list. -/
def items : Value → Except Cause (List Thunk)
  | .list _ items => .ok items
  | v => .error (.typeMismatch "list" v.typeName)

/-- Only the chosen element is forced. -/
def index (source position : NodeId) : Eval Value := do
  let list ← c.eval source
  let place ← c.eval position
  let items ← Eval.check (Context.items list)
  let i ← Eval.check (Context.position place items.length)
  c.force (items.get i)

/-- Rebind a name to its list with one element replaced.  The list is read
before position and value are evaluated. -/
def indexAssign (target : Name) (position value : NodeId) : Eval Value := do
  let some old ← Eval.lookup? target | Eval.raise (.undefinedVariable (c.text target))
  let items ← Eval.check (Context.items old.value)
  let place ← c.eval position
  let i ← Eval.check (Context.position place items.length)
  let v ← c.eval value
  let list ← Eval.newList (items.set i (.forced v))
  let mutability := match ← Eval.lookup? target with
    | some b => b.mutability
    | none => .mutable
  if ← Eval.assign target ⟨list, mutability⟩ then return .void
  else Eval.raise (.immutableBinding (c.text target))

/-! ### Calls -/

/-- A list with all elements forced, and so on for the lists among them, going
`depth` levels down at most. -/
def escape : (depth : Nat) → Value → Eval Value
  | depth, .list _ items =>
    match depth with
    | 0 => throw .outOfReach
    | depth + 1 => do
      let values ← items.mapM fun t => do
        let v ← c.force t
        escape depth v
      Eval.newForced values
  | _, v => return v

/-- What a message calls the callee. -/
def calleeLabel (callee : Kind) (v : Value) : String :=
  match callee, v with
  | .ident name, _ => c.text name
  | _, .function f => if f.name.isEmpty then "<lambda>" else c.text f.name
  | _, v => "<" ++ v.typeName ++ " value>"

/-- The value that is called.  A name is looked up without visiting its node. -/
def callee (id : NodeId) : Kind → Eval Value
  | .ident name => do
    match ← Eval.lookup? name with
    | some b => return b.value
    | none => Eval.raise (.undefinedFunction (c.text name))
  | _ => c.eval id

/-- Evaluate arguments in the current scope and bind them in another one. -/
def bindArguments (scope : ScopeId) : List (Name × NodeId) → Eval Unit
  | [] => return ()
  | (param, arg) :: rest => do
    let v ← c.eval arg
    Eval.define scope param ⟨v, .mutable⟩
    bindArguments scope rest

/-- Evaluate the body of a function in a scope and force the list it returns. -/
def body (f : Function) (scope : ScopeId) : Eval Value := do
  let v ← Eval.inScope scope (c.eval f.body)
  c.escape c.reach v

/-- The scope of a call: a copy of the current one in which the function has its
own name, unless that name is bound already. -/
def callScope (f : Function) : Eval ScopeId := do
  let scope ← Eval.copyScope
  if !f.name.isEmpty && !(← Eval.isBound scope f.name) then
    Eval.define scope f.name ⟨.function f, .mutable⟩
  return scope

/-- What the table of a call starts with. -/
theorem callScope_apply (f : Function) (m : Machine) :
    callScope f m = .ok (m.store.copyScope m.scope).1
      { m with
        store :=
          if !f.name.isEmpty && !(m.store.bindings m.scope).contains f.name then
            (m.store.copyScope m.scope).2.define (m.store.copyScope m.scope).1 f.name
              ⟨.function f, .mutable⟩
          else (m.store.copyScope m.scope).2 } := by
  have hb : (m.store.copyScope m.scope).2.bindings (m.store.copyScope m.scope).1
      = m.store.bindings m.scope := by
    rw [Store.bindings_copyScope, if_pos rfl]
  rw [← hb]
  show (if !f.name.isEmpty && !((m.store.copyScope m.scope).2.bindings
      (m.store.copyScope m.scope).1).contains f.name then do
        Eval.define (m.store.copyScope m.scope).1 f.name ⟨.function f, .mutable⟩
        return (m.store.copyScope m.scope).1
      else return (m.store.copyScope m.scope).1 : Eval ScopeId)
    { m with store := (m.store.copyScope m.scope).2 } = _
  split <;> rfl

def call (span : Span) (id : NodeId) (args : List NodeId) : Eval Value := do
  let kind := (← c.node id).kind
  match ← c.callee id kind with
  | .function f =>
    let scope ← callScope f
    if args.length = f.arity then
      c.bindArguments scope (f.params.zip args)
      Eval.inFrame c.program.names ⟨f.name, some span⟩ (c.body f scope)
    else
      Eval.raise (.arityMismatch (c.calleeLabel kind (.function f)) f.arity args.length)
  | v => Eval.raise (.undefinedFunction (c.calleeLabel kind v))

/-! ### Data -/

def declare (type : Name) (variants : List Variant) : Eval Value := do
  let types ← Eval.check ((← get).types.declare c.program.names ⟨type, variants⟩)
  Eval.setTypes types
  return .void

theorem declare_apply (c : Context) (type : Name) (variants : List Variant) (m : Machine) :
    c.declare type variants m = match m.types.declare c.program.names ⟨type, variants⟩ with
      | .ok types => .ok .void { m with types }
      | .error cause => .error (.fault (.ofCause cause)) m := by
  show (Eval.check (m.types.declare c.program.names ⟨type, variants⟩) >>= fun types => do
    Eval.setTypes types
    return Value.void) m = _
  cases m.types.declare c.program.names ⟨type, variants⟩ <;> rfl

/-- The fields are not evaluated here: each becomes a thunk in the current
scope. -/
def construct (type variant : Name) (fields : List (Name × NodeId)) : Eval Value := do
  let m ← get
  let v ← Eval.check (m.types.variant c.program.names type variant)
  Eval.check (v.checkFields c.program.names type (fields.map (·.1)))
  let thunks := fields.map fun (name, id) => (name, Thunk.deferred id m.scope)
  Eval.newInstance ⟨type, variant, v.arrange thunks⟩

theorem construct_apply (c : Context) (type variant : Name) (fields : List (Name × NodeId))
    (m : Machine) :
    c.construct type variant fields m = match m.types.variant c.program.names type variant with
      | .error cause => .error (.fault (.ofCause cause)) m
      | .ok v =>
        match v.checkFields c.program.names type (fields.map (·.1)) with
        | .error cause => .error (.fault (.ofCause cause)) m
        | .ok _ => Eval.newInstance ⟨type, variant,
            v.arrange (fields.map fun f => (f.1, Thunk.deferred f.2 m.scope))⟩ m := by
  show (Eval.check (m.types.variant c.program.names type variant) >>= fun v => do
    Eval.check (v.checkFields c.program.names type (fields.map (·.1)))
    Eval.newInstance ⟨type, variant,
      v.arrange (fields.map fun f => (f.1, Thunk.deferred f.2 m.scope))⟩) m = _
  cases m.types.variant c.program.names type variant with
  | error cause => rfl
  | ok v =>
    show (Eval.check (v.checkFields c.program.names type (fields.map (·.1))) >>= fun _ =>
      Eval.newInstance ⟨type, variant,
        v.arrange (fields.map fun f => (f.1, Thunk.deferred f.2 m.scope))⟩) m = _
    dsimp only
    cases v.checkFields c.program.names type (fields.map (·.1)) <;> rfl

/-- The instance of a value that has to be data. -/
def instanceId : Value → Except Cause InstanceId
  | .data id => .ok id
  | v => .error (.typeMismatch "data" v.typeName)

def field (receiver : NodeId) (label : Name) : Eval Value := do
  let v ← c.eval receiver
  let id ← Eval.check (instanceId v)
  let d ← Eval.instanceAt id
  match d.field? label with
  | some t => c.force t
  | none => Eval.raise (.undefinedField (c.text label) (d.tag c.program.names))

/-- The value is evaluated now and stored in the instance, for everyone who
refers to it. -/
def fieldAssign (receiver : NodeId) (label : Name) (value : NodeId) : Eval Value := do
  let target ← c.eval receiver
  let id ← Eval.check (instanceId target)
  let v ← c.eval value
  let d ← Eval.instanceAt id
  match d.field? label with
  | some _ =>
    Eval.setField id label (.forced v)
    return .void
  | none => Eval.raise (.undefinedField (c.text label) (d.tag c.program.names))

/-! ### Primitive functions -/

/-- A function of one number. -/
def numeric (f : Decimal → Except Decimal.Error Decimal) : Value → Eval Value
  | .number n => Eval.decimal (f n)
  | v => Eval.raise (.typeMismatch "number" v.typeName)

def display (v : Value) : Eval String := v.display c.program.names c.force c.reach

def applyIntrinsic (function : Intrinsic) (v : Value) : Eval Value :=
  match function with
  | .print => do Eval.write (← c.display v); return .void
  | .println => do Eval.writeLine (← c.display v); return .void
  | .sqrt => numeric Decimal.sqrt v
  | .sin => numeric Decimal.sin v
  | .cos => numeric Decimal.cos v
  | .tan => numeric Decimal.tan v

def intrinsic (function : Intrinsic) : List NodeId → Eval Value
  | [arg] => do
    let v ← c.eval arg
    c.applyIntrinsic function v
  | _ => Eval.raise (.illFormed (function.name ++ " takes exactly one argument"))

/-! ### Nodes -/

/-- Evaluate statements for what they do. -/
def statements : List NodeId → Eval Unit
  | [] => return ()
  | id :: rest => do
    discard (c.eval id)
    statements rest

def ifElse (condition whenTrue whenFalse : NodeId) : Eval Value := do
  match ← c.eval condition with
  | .bool true => c.eval whenTrue
  | .bool false => c.eval whenFalse
  | v => Eval.raise (.typeMismatch "bool" v.typeName)

def ident (name : Name) : Eval Value := do
  match ← Eval.lookup? name with
  | some b => return b.value
  | none => Eval.raise (.undefinedVariable (c.text name))

def assign (name : Name) (value : NodeId) (mutability : Mutability) : Eval Value := do
  let v ← c.eval value
  if ← Eval.assign name ⟨v, mutability⟩ then return v
  else Eval.raise (.immutableBinding (c.text name))

def binary (op : BinaryOp) (left right : NodeId) : Eval Value := do
  let a ← c.eval left
  let b ← c.eval right
  op.apply c.force c.reach a b

/-- The elements are not evaluated here: each becomes a thunk in the current
scope. -/
def list (items : List NodeId) : Eval Value := do
  let m ← get
  Eval.newList (items.map fun id => .deferred id m.scope)

/-- What a node of each kind evaluates to. -/
def evalKind (span : Span) : Kind → Eval Value
  | .number id => do return .number (← Eval.present (c.program.number? id))
  | .bool b => return .bool b
  | .char ch => return .char ch
  | .text content => Eval.newForced ((c.text content).toList.map .char)
  | .void => return .void
  | .ident name => c.ident name
  | .assign name value mutability => c.assign name value mutability
  | .seq statements result => do
    c.statements statements
    c.eval result
  | .ifElse condition whenTrue whenFalse => c.ifElse condition whenTrue whenFalse
  | .lambda name params body => return .function ⟨name, params, body⟩
  | .call id args => c.call span id args
  | .binary op left right => c.binary op left right
  | .list items => list items
  | .index source position => c.index source position
  | .indexAssign target position value => c.indexAssign target position value
  | .field receiver label => c.field receiver label
  | .fieldAssign receiver label value => c.fieldAssign receiver label value
  | .declare type variants => c.declare type variants
  | .construct type variant fields => c.construct type variant fields
  | .intrinsic function args => c.intrinsic function args

/-- A node evaluates as its kind says, and faults get its place. -/
def evalNode (id : NodeId) : Eval Value := do
  let n ← c.node id
  Eval.locate n.span (c.evalKind n.span n.kind)

end Context

/-- Evaluate a node in the current scope, suspended nodes by `resume`. -/
def evalWith (p : Program) (reach : Nat) (resume : NodeId → Eval Value) :
    (fuel : Nat) → NodeId → Eval Value
  | 0, _ => throw .outOfFuel
  | fuel + 1, id => Context.evalNode ⟨p, reach, evalWith p reach resume fuel, resume⟩ id

/-- Evaluate a node in the current scope.  A suspended node has all the fuel
again, and one level of reach less. -/
def eval (p : Program) (fuel : Nat) : (reach : Nat) → NodeId → Eval Value
  | 0, _ => throw .outOfReach
  | reach + 1, id => evalWith p reach (eval p fuel reach) fuel id

/-- The context of every step of an evaluation, which has `rest` of its fuel
left; with all the fuel, the context in which values are looked at from
outside. -/
def Program.context (p : Program) (fuel reach rest : Nat) : Context :=
  ⟨p, reach, evalWith p reach (eval p fuel reach) rest, eval p fuel reach⟩

/-- Evaluate nodes one after another: the last value, or void if there are
none. -/
def runFrom (c : Context) (last : Value) : List NodeId → Eval Value
  | [] => return last
  | id :: rest => do
    let v ← c.eval id
    runFrom c v rest

def run (c : Context) (roots : List NodeId) : Eval Value := runFrom c .void roots

end LazyExpr
