/-
LazyExpr/Inspect.lean

Texts that show how things are represented, for diagnosis.  Nothing is forced:
a deferred thunk is shown by the number of its node.
-/
import LazyExpr.Decimal.Text
import LazyExpr.Store

namespace LazyExpr

namespace Inspect

/-- A word and what it holds, in parentheses. -/
def tuple (word content : String) : String := word ++ "(" ++ content ++ ")"

def list (texts : List String) : String := "[" ++ ", ".intercalate texts ++ "]"

/-- A word and named parts, in braces. -/
def record (word : String) (parts : List (String × String)) : String :=
  word ++ " \x7b " ++ ", ".intercalate (parts.map fun (k, v) => k ++ ": " ++ v) ++ " \x7d"

def name (n : Name) : String := tuple "Name" (toString n.index)

def node (id : NodeId) : String := tuple "ExprId" (toString id.index)

def decimal (d : Decimal) : String := tuple "Decimal" d.toText

def names (ns : Names) : String := record "StringInterner" [("len", toString ns.size)]

def bindings (bs : Bindings) : String := record "Environment" [("bindings", toString bs.size)]

/-- A character as it stands between quotes: the usual escapes, and the code of
any other control character. -/
def charText (c : Char) : String :=
  if c == '\n' then "\\n"
  else if c == '\t' then "\\t"
  else if c == '\r' then "\\r"
  else if c == '\'' then "\\'"
  else if c == '\\' then "\\\\"
  else if c.toNat == 0 then "\\0"
  else if c.toNat < 32 || c.toNat == 127 then
    "\\u\x7b" ++ String.ofList (Nat.toDigits 16 c.toNat) ++ "\x7d"
  else c.toString

def function (f : Function) : String :=
  record "FunctionValue"
    [("name", name f.name), ("params", list (f.params.map name)), ("body", node f.body)]

/-- A data value from the texts of its fields. -/
def data (d : Instance) (fields : List String) : String :=
  record "DataValue"
    [("type_name", name d.type), ("variant", name d.variant), ("fields", list fields)]

/-- A value, `depth` levels down; what lies deeper is left out. -/
def value (store : Store) : (depth : Nat) → Value → String
  | _, .number n => tuple "Number" n.toText
  | _, .bool b => tuple "Bool" (if b then "true" else "false")
  | _, .char c => tuple "Char" ("'" ++ charText c ++ "'")
  | _, .function f => function f
  | _, .void => "Void"
  | 0, _ => "..."
  | depth + 1, .list _ items => tuple "List" (list (items.map fun
      | .forced v => value store depth v
      | .deferred id _ => tuple "Deferred" (node id)))
  | depth + 1, .data id =>
    let d := store.instanceAt id
    data d (d.fields.map fun (n, t) =>
      let content := match t with
        | .forced v => value store depth v
        | .deferred id _ => tuple "Deferred" (node id)
      "(" ++ name n ++ ", " ++ content ++ ")")

end Inspect

end LazyExpr
