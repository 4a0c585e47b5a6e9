/-
LazyExpr/Display.lean

The text of a value, as it is printed.

A list that has elements, all of them characters, is shown as the text they
form; any other list is shown in brackets.  All elements of a list are forced
before any of them is shown; the fields of a data value are forced one by one as
they are shown.  Like a comparison, this goes down to a given depth only.
-/
import LazyExpr.Decimal.Text
import LazyExpr.Machine

namespace LazyExpr

namespace Display

/-- The name of a function in brackets, or a word for an anonymous one. -/
def function (names : Names) (f : Function) : String :=
  if f.name.isEmpty then "<lambda>" else "<function " ++ names.text f.name ++ ">"

/-- A list from the texts of its elements. -/
def list (values : List Value) (texts : List String) : String :=
  if !values.isEmpty && values.all Value.isChar then String.join texts
  else "[" ++ ", ".intercalate texts ++ "]"

/-- A data value from its tag and the texts of its fields. -/
def data (tag : String) (fields : List String) : String :=
  tag ++ "\x7b" ++ ", ".intercalate fields ++ "\x7d"

end Display

/-- The text of a value, going `depth` levels down at most. -/
def Value.display (names : Names) (force : Thunk → Eval Value) :
    (depth : Nat) → Value → Eval String
  | _, .number n => return n.toText
  | _, .bool b => return if b then "true" else "false"
  | _, .char c => return c.toString
  | _, .function f => return Display.function names f
  | _, .void => return "void"
  | depth, .list _ items =>
    match depth with
    | 0 => throw .outOfReach
    | depth + 1 => do
      let values ← items.mapM force
      let texts ← values.mapM (Value.display names force depth)
      return Display.list values texts
  | depth, .data id =>
    match depth with
    | 0 => throw .outOfReach
    | depth + 1 => do
      let d ← Eval.instanceAt id
      let fields ← d.fields.mapM fun (name, t) => do
        let v ← force t
        let text ← Value.display names force depth v
        return names.text name ++ ": " ++ text
      return Display.data (d.tag names) fields

end LazyExpr
