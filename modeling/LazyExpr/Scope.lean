/-
LazyExpr/Scope.lean

Tables of bindings.

A table holds at most one binding of each name.  `insert` replaces without
asking, `assign?` refuses to replace an immutable binding.
-/
import LazyExpr.Operator
import LazyExpr.Value

namespace LazyExpr

local instance : DecidableEq Value := Value.decEq

/-- The value of a name and whether it may be replaced. -/
structure Binding where
  value : Value
  mutability : Mutability
deriving DecidableEq, Inhabited

/-- The bindings visible in one scope. -/
structure Bindings where
  entries : List (Name × Binding)
deriving Inhabited

namespace Bindings

def empty : Bindings := ⟨[]⟩

def size (bs : Bindings) : Nat := bs.entries.length

def find? (bs : Bindings) (name : Name) : Option Binding :=
  (bs.entries.find? (·.1 == name)).map (·.2)

theorem mem_of_find? {bs : Bindings} {name : Name} {b : Binding} (h : bs.find? name = some b) :
    (name, b) ∈ bs.entries := by
  obtain ⟨⟨n, b'⟩, hfind, rfl⟩ := Option.map_eq_some_iff.1 h
  obtain rfl : n = name := by simpa using List.find?_some hfind
  exact List.mem_of_find?_eq_some hfind

def contains (bs : Bindings) (name : Name) : Bool := (bs.find? name).isSome

/-- Put a binding in the place of the one of the same name, or at the end. -/
def insertEntry (name : Name) (b : Binding) : List (Name × Binding) → List (Name × Binding)
  | [] => [(name, b)]
  | e :: rest => if e.1 == name then (name, b) :: rest else e :: insertEntry name b rest

/-- Bind a name, whatever its binding was. -/
def insert (bs : Bindings) (name : Name) (b : Binding) : Bindings :=
  ⟨insertEntry name b bs.entries⟩

theorem find?_insertEntry (name : Name) (b : Binding) (es : List (Name × Binding)) (n : Name) :
    ((insertEntry name b es).find? (·.1 == n)).map (·.2) =
      if n = name then some b else (es.find? (·.1 == n)).map (·.2) := by
  induction es with
  | nil =>
    by_cases h : n = name
    · simp [insertEntry, h]
    · have h' : ¬ name = n := fun e => h e.symm
      simp [insertEntry, h, h']
  | cons e rest ih =>
    by_cases he : e.1 = name
    · by_cases h : n = name
      · simp [insertEntry, he, h]
      · have h' : ¬ name = n := fun e => h e.symm
        simp [insertEntry, he, h, h']
    · by_cases hn : e.1 = n
      · have h : ¬ n = name := fun e => he (hn.trans e)
        simp [insertEntry, hn, h]
      · simpa [insertEntry, he, hn] using ih

/-- After `insert`, the name has the new binding and all others what they
had. -/
theorem find?_insert (bs : Bindings) (name : Name) (b : Binding) (n : Name) :
    (bs.insert name b).find? n = if n = name then some b else bs.find? n :=
  find?_insertEntry name b bs.entries n

/-- Whether the name has a binding that may not be replaced. -/
def isImmutable (bs : Bindings) (name : Name) : Bool :=
  match bs.find? name with
  | some b => b.mutability == .immutable
  | none => false

/-- Bind a name unless its binding is immutable. -/
def assign? (bs : Bindings) (name : Name) (b : Binding) : Option Bindings :=
  if bs.isImmutable name then none else some (bs.insert name b)

end Bindings

end LazyExpr
