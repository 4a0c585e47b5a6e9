/-
LazyExpr/Expr.lean

Expressions as trees, and their layout in a program.

`Expr.build` adds the nodes of a tree to a program: the parts first, from left
to right, then the names that the node itself mentions, then the node.  A part
does not take over the place of the whole: a node has the span given directly
around it, or none.  A literal that is no number stops the building; what was
added until then stays.
-/
import LazyExpr.Decimal.Text
import LazyExpr.Program

namespace LazyExpr

/-- An expression, its names and number literals as they are written. -/
inductive Expr where
  | numeral (literal : String)
  | decimal (d : Decimal)
  | integer (n : Int)
  | bool (b : Bool)
  | char (c : Char)
  | text (content : String)
  | void
  | ident (name : String)
  | assign (mutability : Mutability) (name : String) (value : Expr)
  | seq (statements : List Expr) (result : Expr)
  | ifElse (condition whenTrue whenFalse : Expr)
  | lambda (name : String) (params : List String) (body : Expr)
  | call (callee : Expr) (args : List Expr)
  /-- A call of a function by its name; the name is looked at after the
  arguments. -/
  | callNamed (name : String) (args : List Expr)
  | binary (op : BinaryOp) (left right : Expr)
  | list (items : List Expr)
  | index (source position : Expr)
  | indexAssign (target : String) (position value : Expr)
  | field (receiver : Expr) (label : String)
  | fieldAssign (receiver : Expr) (label : String) (value : Expr)
  | declare (type : String) (variants : List (String × List String))
  | construct (type variant : String) (fields : List (String × Expr))
  | intrinsic (function : Intrinsic) (args : List Expr)
  /-- The expression with its place in the source text. -/
  | located (span : Span) (e : Expr)
deriving Inhabited

/-! ### Layout -/

/-- A step that adds to a storage, or meets a malformed literal. -/
abbrev Build (σ : Type) := EStateM Decimal.Error σ

section

variable {σ : Type} [Storage σ]

namespace Build

def name (text : String) : Build σ Name := modifyGet fun a => Storage.addName a text

def names (texts : List String) : Build σ (List Name) := texts.mapM name

def node (span : Span) (kind : Kind) : Build σ NodeId :=
  modifyGet fun a => Storage.addNode a ⟨kind, span⟩

def number (d : Decimal) : Build σ NumberId := modifyGet fun a => Storage.addNumber a d

def variant (v : String × List String) : Build σ Variant := do
  let n ← name v.1
  return ⟨n, ← names v.2⟩

/-- A node for a decimal. -/
def decimal (span : Span) (d : Decimal) : Build σ NodeId := do
  node span (.number (← number d))

end Build

mutual

/-- Add the nodes of an expression, the last of them at `span`. -/
def Expr.buildAt (span : Span) : Expr → Build σ NodeId
  | .numeral literal =>
    match Decimal.ofText literal with
    | .ok d => Build.decimal span d
    | .error e => throw e
  | .decimal d => Build.decimal span d
  | .integer n => Build.decimal span (Decimal.ofInt n)
  | .bool b => Build.node span (.bool b)
  | .char c => Build.node span (.char c)
  | .text content => do Build.node span (.text (← Build.name content))
  | .void => Build.node span .void
  | .ident name => do Build.node span (.ident (← Build.name name))
  | .assign mutability name value => do
    let value ← Expr.buildAt .unlocated value
    Build.node span (.assign (← Build.name name) value mutability)
  | .seq statements result => do
    let statements ← Expr.buildAll statements
    let result ← Expr.buildAt .unlocated result
    Build.node span (.seq statements result)
  | .ifElse condition whenTrue whenFalse => do
    let condition ← Expr.buildAt .unlocated condition
    let whenTrue ← Expr.buildAt .unlocated whenTrue
    let whenFalse ← Expr.buildAt .unlocated whenFalse
    Build.node span (.ifElse condition whenTrue whenFalse)
  | .lambda name params body => do
    let body ← Expr.buildAt .unlocated body
    let name ← Build.name name
    Build.node span (.lambda name (← Build.names params) body)
  | .call callee args => do
    let callee ← Expr.buildAt .unlocated callee
    let args ← Expr.buildAll args
    Build.node span (.call callee args)
  | .callNamed name args => do
    let args ← Expr.buildAll args
    let callee ← Build.node span (.ident (← Build.name name))
    Build.node span (.call callee args)
  | .binary op left right => do
    let left ← Expr.buildAt .unlocated left
    let right ← Expr.buildAt .unlocated right
    Build.node span (.binary op left right)
  | .list items => do Build.node span (.list (← Expr.buildAll items))
  | .index source position => do
    let source ← Expr.buildAt .unlocated source
    let position ← Expr.buildAt .unlocated position
    Build.node span (.index source position)
  | .indexAssign target position value => do
    let position ← Expr.buildAt .unlocated position
    let value ← Expr.buildAt .unlocated value
    Build.node span (.indexAssign (← Build.name target) position value)
  | .field receiver label => do
    let receiver ← Expr.buildAt .unlocated receiver
    Build.node span (.field receiver (← Build.name label))
  | .fieldAssign receiver label value => do
    let receiver ← Expr.buildAt .unlocated receiver
    let value ← Expr.buildAt .unlocated value
    Build.node span (.fieldAssign receiver (← Build.name label) value)
  | .declare type variants => do
    let type ← Build.name type
    Build.node span (.declare type (← variants.mapM Build.variant))
  | .construct type variant fields => do
    let values ← Expr.buildFields fields
    let type ← Build.name type
    let variant ← Build.name variant
    let names ← Build.names (fields.map (·.1))
    Build.node span (.construct type variant (names.zip values))
  | .intrinsic function args => do Build.node span (.intrinsic function (← Expr.buildAll args))
  | .located inner e => Expr.buildAt inner e

/-- Add expressions one after another. -/
def Expr.buildAll : List Expr → Build σ (List NodeId)
  | [] => return []
  | e :: rest => do
    let id ← Expr.buildAt .unlocated e
    return id :: (← Expr.buildAll rest)

/-- Add the values of fields one after another. -/
def Expr.buildFields : List (String × Expr) → Build σ (List NodeId)
  | [] => return []
  | (_, e) :: rest => do
    let id ← Expr.buildAt .unlocated e
    return id :: (← Expr.buildFields rest)

end

/-- Add the nodes of an expression. -/
def Expr.build (e : Expr) : Build σ NodeId := e.buildAt .unlocated

end

end LazyExpr
