/-
LazyExpr/Program.lean

Programs: numbered nodes, the decimals and the names they mention.

Nodes are only ever added, and a node refers to nodes that were there before it,
so a reference stays good while a program grows.
-/
import LazyExpr.DataType
import LazyExpr.Value

namespace LazyExpr

/-- A decimal of a program. -/
structure NumberId where
  index : Nat
deriving DecidableEq, Inhabited, Repr

/-- What a node is. -/
inductive Kind where
  | number (id : NumberId)
  | bool (b : Bool)
  | char (c : Char)
  | text (content : Name)
  | void
  | ident (name : Name)
  | assign (name : Name) (value : NodeId) (mutability : Mutability)
  /-- Evaluate the statements, then the result. -/
  | seq (statements : List NodeId) (result : NodeId)
  | ifElse (condition whenTrue whenFalse : NodeId)
  | lambda (name : Name) (params : List Name) (body : NodeId)
  | call (callee : NodeId) (args : List NodeId)
  | binary (op : BinaryOp) (left right : NodeId)
  | list (items : List NodeId)
  | index (source position : NodeId)
  /-- Replace one element of the list that is bound to a name. -/
  | indexAssign (target : Name) (position value : NodeId)
  | field (receiver : NodeId) (label : Name)
  | fieldAssign (receiver : NodeId) (label : Name) (value : NodeId)
  | declare (type : Name) (variants : List Variant)
  | construct (type variant : Name) (fields : List (Name × NodeId))
  | intrinsic (function : Intrinsic) (args : List NodeId)
deriving DecidableEq, Inhabited, Repr

/-- A node and its place in the source text. -/
structure Node where
  kind : Kind
  span : Span
deriving DecidableEq, Inhabited, Repr

/-- Nodes, decimals and names. -/
structure Program where
  nodes : Array Node
  numbers : Array Decimal
  names : Names
deriving Inhabited

namespace Program

def empty : Program := ⟨#[], #[], Names.initial⟩

def size (p : Program) : Nat := p.nodes.size

def node? (p : Program) (id : NodeId) : Option Node := p.nodes[id.index]?

def number? (p : Program) (id : NumberId) : Option Decimal := p.numbers[id.index]?

def addNode (p : Program) (n : Node) : NodeId × Program :=
  (⟨p.nodes.size⟩, { p with nodes := p.nodes.push n })

def addNumber (p : Program) (d : Decimal) : NumberId × Program :=
  (⟨p.numbers.size⟩, { p with numbers := p.numbers.push d })

def addName (p : Program) (text : String) : Name × Program :=
  let (n, names) := p.names.intern text
  (n, { p with names })

end Program

/-! ### Storage -/

/-- What expressions can be laid out in.  It stands for a program, and what is added
to it is added to that program. -/
class Storage (σ : Type) where
  program : σ → Program
  addNode : σ → Node → NodeId × σ
  addNumber : σ → Decimal → NumberId × σ
  addName : σ → String → Name × σ
  program_addNode : ∀ a n, (addNode a n).map id program = (program a).addNode n
  program_addNumber : ∀ a d, (addNumber a d).map id program = (program a).addNumber d
  program_addName : ∀ a t, (addName a t).map id program = (program a).addName t

instance : Storage Program where
  program := id
  addNode := Program.addNode
  addNumber := Program.addNumber
  addName := Program.addName
  program_addNode _ _ := rfl
  program_addNumber _ _ := rfl
  program_addName _ _ := rfl

end LazyExpr
