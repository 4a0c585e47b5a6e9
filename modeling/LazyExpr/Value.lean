/-
LazyExpr/Value.lean

Values, and the suspended elements of lists and fields of data.

List elements and data fields are thunks: a value, or a node of the program with
the scope it is to be evaluated in.  A deferred thunk stays deferred; it is
evaluated anew each time its value is asked for.

Two identities are part of a value.  A data value is a reference to an instance
in the store, whose fields are shared by everyone who holds the reference.  A
list holds its elements itself and never changes, and carries a number that
tells lists made at different times apart: comparing a list with itself forces
nothing.
-/
import LazyExpr.Decimal.Basic
import LazyExpr.Name

namespace LazyExpr

/-! ### References -/

/-- A node of a program. -/
structure NodeId where
  index : Nat
deriving DecidableEq, Inhabited, Repr

/-- A table of bindings in a store. -/
structure ScopeId where
  index : Nat
deriving DecidableEq, Inhabited, Repr

/-- A data instance in a store. -/
structure InstanceId where
  index : Nat
deriving DecidableEq, Inhabited, Repr

/-- The identity of a list. -/
structure ListId where
  index : Nat
deriving DecidableEq, Inhabited, Repr

/-! ### Values -/

/-- A function: its name, empty for an anonymous one, its parameters and the
node of its body.  No scope is captured. -/
structure Function where
  name : Name
  params : List Name
  body : NodeId
deriving DecidableEq, Inhabited, Repr

def Function.arity (f : Function) : Nat := f.params.length

mutual

/-- What an expression evaluates to.  Text is a list of characters. -/
inductive Value where
  | number (n : Decimal)
  | bool (b : Bool)
  | char (c : Char)
  | list (id : ListId) (items : List Thunk)
  | function (f : Function)
  | data (id : InstanceId)
  | void

/-- A list element or a data field. -/
inductive Thunk where
  | forced (v : Value)
  | deferred (node : NodeId) (scope : ScopeId)

end

instance : Inhabited Value := ⟨.void⟩

instance : Inhabited Thunk := ⟨.forced .void⟩

namespace Value

/-- The kind of a value, as it is named in messages. -/
def typeName : Value → String
  | number _ => "number"
  | bool _ => "bool"
  | char _ => "char"
  | list _ _ => "list"
  | function _ => "function"
  | data _ => "data"
  | void => "void"

def isChar : Value → Bool
  | char _ => true
  | _ => false

end Value

/-! ### Identity -/

mutual

/-- Whether two values are the same without forcing anything: numbers by value,
lists element by element, functions by definition, data by instance. -/
def Value.same : Value → Value → Bool
  | .number a, .number b => a.sameValue b
  | .bool a, .bool b => a == b
  | .char a, .char b => a == b
  | .list _ xs, .list _ ys => Thunk.sameAll xs ys
  | .function f, .function g => f == g
  | .data a, .data b => a == b
  | .void, .void => true
  | _, _ => false

/-- Forced thunks by value, deferred ones by node and scope. -/
def Thunk.same : Thunk → Thunk → Bool
  | .forced a, .forced b => Value.same a b
  | .deferred a s, .deferred b t => a == b && s == t
  | _, _ => false

/-- The same number of thunks, pairwise the same. -/
def Thunk.sameAll : List Thunk → List Thunk → Bool
  | [], [] => true
  | x :: xs, y :: ys => Thunk.same x y && Thunk.sameAll xs ys
  | _, _ => false

end

/-! ### Structural equality -/

mutual

/-- Whether two values are written the same, identities of lists included.  It is an
instance only where it is declared one: which values are the same for the program is for
`Value.same` to say. -/
def Value.decEq (v w : Value) : Decidable (v = w) :=
  if h : v.ctorIdx = w.ctorIdx then
    match v, w, h with
    | .number a, .number b, _ => decidable_of_iff (a = b) (by simp)
    | .bool a, .bool b, _ => decidable_of_iff (a = b) (by simp)
    | .char a, .char b, _ => decidable_of_iff (a = b) (by simp)
    | .list i xs, .list j ys, _ =>
      have := Thunk.decEqAll xs ys
      decidable_of_iff (i = j ∧ xs = ys) (by simp)
    | .function f, .function g, _ => decidable_of_iff (f = g) (by simp)
    | .data a, .data b, _ => decidable_of_iff (a = b) (by simp)
    | .void, .void, _ => isTrue rfl
  else isFalse fun he => h (congrArg Value.ctorIdx he)

/-- Whether two thunks are written the same. -/
def Thunk.decEq : (t u : Thunk) → Decidable (t = u)
  | .forced v, .forced w =>
    have := Value.decEq v w
    decidable_of_iff (v = w) (by simp)
  | .deferred a s, .deferred b t => decidable_of_iff (a = b ∧ s = t) (by simp)
  | .forced _, .deferred _ _ => isFalse (by simp)
  | .deferred _ _, .forced _ => isFalse (by simp)

/-- Whether two lists of thunks are written the same. -/
def Thunk.decEqAll : (ts us : List Thunk) → Decidable (ts = us)
  | [], [] => isTrue rfl
  | t :: ts, u :: us =>
    have := Thunk.decEq t u
    have := Thunk.decEqAll ts us
    decidable_of_iff (t = u ∧ ts = us) (by simp)
  | [], _ :: _ => isFalse (by simp)
  | _ :: _, [] => isFalse (by simp)

end

end LazyExpr
