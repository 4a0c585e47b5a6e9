/-
LazyExpr/Reading.lean

Expressions read back from a program.

A node is read as an expression by following its parts, and its names and decimals to
what they stand for.  A program may have nodes whose parts are not there, or that are
parts of themselves; those are no expressions.

What is read has a place at every node, the values of its literals and no calls by
name.  `Expr.resolve` brings any expression into that form.
-/
import LazyExpr.Arena
import LazyExpr.Expr

namespace LazyExpr

/-! ### Reading -/

namespace Program

def readVariant (p : Program) (v : Variant) : Option (String × List String) :=
  return (← p.names.text? v.name, ← v.fields.mapM p.names.text?)

/-- A field of a constructor with the expression of its value. -/
def readField (p : Program) (part : NodeId → Option Expr) (f : Name × NodeId) :
    Option (String × Expr) :=
  return (← p.names.text? f.1, ← part f.2)

/-- An expression from what a node is and the expressions of its parts. -/
def readKind (p : Program) (part : NodeId → Option Expr) : Kind → Option Expr
  | .number id => return .decimal (← p.number? id)
  | .bool b => return .bool b
  | .char c => return .char c
  | .text content => return .text (← p.names.text? content)
  | .void => return .void
  | .ident name => return .ident (← p.names.text? name)
  | .assign name value mutability =>
    return .assign mutability (← p.names.text? name) (← part value)
  | .seq statements result => return .seq (← statements.mapM part) (← part result)
  | .ifElse condition whenTrue whenFalse =>
    return .ifElse (← part condition) (← part whenTrue) (← part whenFalse)
  | .lambda name params body =>
    return .lambda (← p.names.text? name) (← params.mapM p.names.text?) (← part body)
  | .call callee args => return .call (← part callee) (← args.mapM part)
  | .binary op left right => return .binary op (← part left) (← part right)
  | .list items => return .list (← items.mapM part)
  | .index source position => return .index (← part source) (← part position)
  | .indexAssign target position value =>
    return .indexAssign (← p.names.text? target) (← part position) (← part value)
  | .field receiver label => return .field (← part receiver) (← p.names.text? label)
  | .fieldAssign receiver label value =>
    return .fieldAssign (← part receiver) (← p.names.text? label) (← part value)
  | .declare type variants =>
    return .declare (← p.names.text? type) (← variants.mapM p.readVariant)
  | .construct type variant fields =>
    return .construct (← p.names.text? type) (← p.names.text? variant)
      (← fields.mapM (p.readField part))
  | .intrinsic function args => return .intrinsic function (← args.mapM part)

/-- The expression of a node, `depth` levels down. -/
def readExpr (p : Program) : (depth : Nat) → NodeId → Option Expr
  | 0, _ => none
  | depth + 1, id => do
    let n ← p.node? id
    return .located n.span (← p.readKind (p.readExpr depth) n.kind)

/-- The expression of a node.  On the way to a part of a part no node is met twice,
so the number of nodes is depth enough. -/
def expr? (p : Program) (id : NodeId) : Option Expr := p.readExpr p.size id

end Program

/-- The expression of a node. -/
def Arena.expr? (a : Arena) (id : NodeId) : Option Expr := a.program.expr? id

/-! ### Expressions as they are read -/

mutual

/-- An expression with the values of its literals, calls for calls by name, and a
place at every node, the outermost of them at `span`.  Fails at the first malformed
literal. -/
def Expr.resolveAt (span : Span) : Expr → Except Decimal.Error Expr
  | .numeral literal => return .located span (.decimal (← Decimal.ofText literal))
  | .decimal d => return .located span (.decimal d)
  | .integer n => return .located span (.decimal (Decimal.ofInt n))
  | .bool b => return .located span (.bool b)
  | .char c => return .located span (.char c)
  | .text content => return .located span (.text content)
  | .void => return .located span .void
  | .ident name => return .located span (.ident name)
  | .assign mutability name value =>
    return .located span (.assign mutability name (← value.resolveAt .unlocated))
  | .seq statements result =>
    return .located span
      (.seq (← Expr.resolveAll statements) (← result.resolveAt .unlocated))
  | .ifElse condition whenTrue whenFalse =>
    return .located span (.ifElse (← condition.resolveAt .unlocated)
      (← whenTrue.resolveAt .unlocated) (← whenFalse.resolveAt .unlocated))
  | .lambda name params body =>
    return .located span (.lambda name params (← body.resolveAt .unlocated))
  | .call callee args =>
    return .located span (.call (← callee.resolveAt .unlocated) (← Expr.resolveAll args))
  | .callNamed name args =>
    return .located span (.call (.located span (.ident name)) (← Expr.resolveAll args))
  | .binary op left right =>
    return .located span
      (.binary op (← left.resolveAt .unlocated) (← right.resolveAt .unlocated))
  | .list items => return .located span (.list (← Expr.resolveAll items))
  | .index source position =>
    return .located span
      (.index (← source.resolveAt .unlocated) (← position.resolveAt .unlocated))
  | .indexAssign target position value =>
    return .located span
      (.indexAssign target (← position.resolveAt .unlocated) (← value.resolveAt .unlocated))
  | .field receiver label =>
    return .located span (.field (← receiver.resolveAt .unlocated) label)
  | .fieldAssign receiver label value =>
    return .located span
      (.fieldAssign (← receiver.resolveAt .unlocated) label (← value.resolveAt .unlocated))
  | .declare type variants => return .located span (.declare type variants)
  | .construct type variant fields =>
    return .located span (.construct type variant (← Expr.resolveFields fields))
  | .intrinsic function args =>
    return .located span (.intrinsic function (← Expr.resolveAll args))
  | .located inner e => e.resolveAt inner

def Expr.resolveAll : List Expr → Except Decimal.Error (List Expr)
  | [] => return []
  | e :: rest => return (← e.resolveAt .unlocated) :: (← Expr.resolveAll rest)

def Expr.resolveFields : List (String × Expr) → Except Decimal.Error (List (String × Expr))
  | [] => return []
  | (name, e) :: rest =>
    return (name, ← e.resolveAt .unlocated) :: (← Expr.resolveFields rest)

end

/-- An expression as it is read. -/
def Expr.resolve (e : Expr) : Except Decimal.Error Expr := e.resolveAt .unlocated

end LazyExpr
