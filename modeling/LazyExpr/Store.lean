/-
LazyExpr/Store.lean

Everything that programs share and change: tables of bindings, data instances,
and the numbers already given to lists.

Tables and instances are only ever added.  A call works on a copy of its
caller's table (`copyScope`): the copy holds the same values, so instances stay
shared, and a binding made in one table afterwards is not seen in the other.
-/
import LazyExpr.Scope

namespace LazyExpr

local instance : DecidableEq Thunk := Thunk.decEq

/-- A data instance: its type, its variant and its fields. -/
structure Instance where
  type : Name
  variant : Name
  fields : List (Name × Thunk)
deriving DecidableEq, Inhabited

namespace Instance

/-- The thunk in a field. -/
def field? (d : Instance) (name : Name) : Option Thunk :=
  (d.fields.find? (·.1 == name)).map (·.2)

/-- Replace the thunk in the first field of that name. -/
def replaceField (name : Name) (t : Thunk) : List (Name × Thunk) → List (Name × Thunk)
  | [] => []
  | f :: rest => if f.1 == name then (name, t) :: rest else f :: replaceField name t rest

theorem mem_replaceField {name : Name} {t : Thunk} {fs : List (Name × Thunk)}
    {f : Name × Thunk} (h : f ∈ replaceField name t fs) : f ∈ fs ∨ f = (name, t) := by
  induction fs with
  | nil => exact .inl h
  | cons g rest ih =>
    unfold replaceField at h
    split at h
    · rcases List.mem_cons.1 h with rfl | h
      · exact .inr rfl
      · exact .inl (List.mem_cons_of_mem g h)
    · rcases List.mem_cons.1 h with rfl | h
      · exact .inl List.mem_cons_self
      · exact (ih h).imp_left (List.mem_cons_of_mem g)

/-- A replaced field keeps its name and its place. -/
theorem map_fst_replaceField (name : Name) (t : Thunk) (fs : List (Name × Thunk)) :
    (replaceField name t fs).map (·.1) = fs.map (·.1) := by
  induction fs with
  | nil => rfl
  | cons g rest ih =>
    unfold replaceField
    split
    · next h => simpa using (beq_iff_eq.1 h).symm
    · simpa using ih

/-- The instance with a field replaced; a name that is no field changes
nothing. -/
def setField (d : Instance) (name : Name) (t : Thunk) : Instance :=
  { d with fields := replaceField name t d.fields }

/-- Type and variant, as they are shown. -/
def tag (d : Instance) (names : Names) : String :=
  names.text d.type ++ "$" ++ names.text d.variant

end Instance

/-- The shared state of a session. -/
structure Store where
  scopes : Array Bindings
  instances : Array Instance
  /-- How many lists have been made. -/
  lists : Nat
deriving Inhabited

namespace Store

def empty : Store := ⟨#[], #[], 0⟩

/-! ### Scopes -/

/-- The bindings of a scope; a scope that was never made has none. -/
def bindings (s : Store) (id : ScopeId) : Bindings := s.scopes[id.index]?.getD Bindings.empty

/-- A new scope with the given bindings. -/
def addScope (s : Store) (bs : Bindings) : ScopeId × Store :=
  (⟨s.scopes.size⟩, { s with scopes := s.scopes.push bs })

/-- A new scope with the bindings that another one has now. -/
def copyScope (s : Store) (id : ScopeId) : ScopeId × Store := s.addScope (s.bindings id)

def setBindings (s : Store) (id : ScopeId) (bs : Bindings) : Store :=
  { s with scopes := s.scopes.setIfInBounds id.index bs }

/-- Bind a name in a scope, whatever its binding was. -/
def define (s : Store) (id : ScopeId) (name : Name) (b : Binding) : Store :=
  s.setBindings id ((s.bindings id).insert name b)

/-- Bind a name in a scope unless its binding is immutable. -/
def assign? (s : Store) (id : ScopeId) (name : Name) (b : Binding) : Option Store :=
  ((s.bindings id).assign? name b).map (s.setBindings id)

theorem bindings_addScope (s : Store) (bs : Bindings) (id : ScopeId) :
    (s.addScope bs).2.bindings id =
      if id = (s.addScope bs).1 then bs else s.bindings id := by
  obtain ⟨i⟩ := id
  by_cases h : i = s.scopes.size
  · simp [addScope, bindings, h]
  · simp [addScope, bindings, h, Array.getElem?_push]

theorem bindings_setBindings (s : Store) (id : ScopeId) (bs : Bindings) (other : ScopeId)
    (h : other ≠ id) : (s.setBindings id bs).bindings other = s.bindings other := by
  obtain ⟨i⟩ := id
  obtain ⟨j⟩ := other
  have hij : ¬ i = j := fun e => h (by rw [e])
  simp [setBindings, bindings, hij]

theorem bindings_of_size_le (s : Store) (id : ScopeId) (h : s.scopes.size ≤ id.index) :
    s.bindings id = Bindings.empty := by
  simp [bindings, Array.getElem?_eq_none h]

theorem bindings_setBindings_self (s : Store) (id : ScopeId) (bs : Bindings) :
    (s.setBindings id bs).bindings id = if id.index < s.scopes.size then bs else s.bindings id := by
  split
  · next h => simp [setBindings, bindings, h]
  · next h => simp [setBindings, bindings, h]

@[simp] theorem size_define (s : Store) (id : ScopeId) (name : Name) (b : Binding) :
    (s.define id name b).scopes.size = s.scopes.size := by
  simp [define, setBindings]

@[simp] theorem instances_define (s : Store) (id : ScopeId) (name : Name) (b : Binding) :
    (s.define id name b).instances = s.instances := rfl

/-- After `define`, the name has the new binding in that scope, if there is such a
scope; all else is as it was. -/
theorem find?_define (s : Store) (id : ScopeId) (name : Name) (b : Binding) (other : ScopeId)
    (n : Name) :
    ((s.define id name b).bindings other).find? n =
      if (other = id ∧ id.index < s.scopes.size) ∧ n = name then some b
      else (s.bindings other).find? n := by
  unfold define
  by_cases h : other = id
  · subst h
    rw [bindings_setBindings_self]
    by_cases hlt : other.index < s.scopes.size
    · simp [hlt, Bindings.find?_insert]
    · simp [hlt]
  · simp [bindings_setBindings _ _ _ _ h, h]

/-- What holds of all bindings still does after `define`, if it holds of the new one. -/
theorem forall_define {P : Binding → Prop} {s : Store} {id : ScopeId} {name : Name} {b : Binding}
    (h : ∀ {t n c}, (s.bindings t).find? n = some c → P c) (hb : P b) {t : ScopeId} {n : Name}
    {c : Binding} (hc : ((s.define id name b).bindings t).find? n = some c) : P c := by
  rw [find?_define] at hc
  split at hc
  · cases hc
    exact hb
  · exact h hc

@[simp] theorem size_copyScope (s : Store) (id : ScopeId) :
    (s.copyScope id).2.scopes.size = s.scopes.size + 1 := by
  simp [copyScope, addScope]

@[simp] theorem instances_copyScope (s : Store) (id : ScopeId) :
    (s.copyScope id).2.instances = s.instances := rfl

/-- The copy has the bindings of the original, and the others theirs. -/
theorem bindings_copyScope (s : Store) (id other : ScopeId) :
    (s.copyScope id).2.bindings other =
      if other = (s.copyScope id).1 then s.bindings id else s.bindings other :=
  bindings_addScope s (s.bindings id) other

/-- A copy has no bindings that were not there. -/
theorem forall_copyScope {P : Binding → Prop} {s : Store} {id : ScopeId}
    (h : ∀ {t n c}, (s.bindings t).find? n = some c → P c) {t : ScopeId} {n : Name} {c : Binding}
    (hc : ((s.copyScope id).2.bindings t).find? n = some c) : P c := by
  rw [bindings_copyScope] at hc
  split at hc
  · exact h hc
  · exact h hc

/-! ### Instances -/

/-- The instance that a reference stands for; one that was never made has no
fields. -/
def instanceAt (s : Store) (id : InstanceId) : Instance :=
  s.instances[id.index]?.getD ⟨Name.empty, Name.empty, []⟩

def addInstance (s : Store) (d : Instance) : InstanceId × Store :=
  (⟨s.instances.size⟩, { s with instances := s.instances.push d })

/-- Replace a field of an instance, for everyone who refers to it. -/
def setField (s : Store) (id : InstanceId) (name : Name) (t : Thunk) : Store :=
  { s with instances := s.instances.modify id.index (·.setField name t) }

@[simp] theorem size_setField (s : Store) (id : InstanceId) (name : Name) (t : Thunk) :
    (s.setField id name t).instances.size = s.instances.size := by
  simp [setField]

@[simp] theorem scopes_setField (s : Store) (id : InstanceId) (name : Name) (t : Thunk) :
    (s.setField id name t).scopes = s.scopes := rfl

theorem instanceAt_setField (s : Store) (id : InstanceId) (name : Name) (t : Thunk)
    (other : InstanceId) :
    (s.setField id name t).instanceAt other =
      if other = id then (s.instanceAt id).setField name t else s.instanceAt other := by
  obtain ⟨i⟩ := id
  obtain ⟨j⟩ := other
  by_cases h : j = i
  · subst h
    by_cases hlt : j < s.instances.size
    · simp [setField, instanceAt, hlt, Array.getElem_modify]
    · simp [setField, instanceAt, hlt, Instance.setField, Instance.replaceField]
  · have h' : ¬ i = j := fun e => h e.symm
    simp [setField, instanceAt, h, h', Array.getElem?_modify]

@[simp] theorem size_addInstance (s : Store) (d : Instance) :
    (s.addInstance d).2.instances.size = s.instances.size + 1 := by
  simp [addInstance]

@[simp] theorem scopes_addInstance (s : Store) (d : Instance) :
    (s.addInstance d).2.scopes = s.scopes := rfl

theorem instanceAt_addInstance (s : Store) (d : Instance) (id : InstanceId) :
    (s.addInstance d).2.instanceAt id =
      if id = (s.addInstance d).1 then d else s.instanceAt id := by
  obtain ⟨i⟩ := id
  by_cases h : i = s.instances.size
  · simp [addInstance, instanceAt, h]
  · simp [addInstance, instanceAt, h, Array.getElem?_push]

/-! ### Lists -/

/-- A list that is different from all lists made before. -/
def addList (s : Store) (items : List Thunk) : Value × Store :=
  (.list ⟨s.lists⟩ items, { s with lists := s.lists + 1 })

/-- A list of values. -/
def addForced (s : Store) (values : List Value) : Value × Store :=
  s.addList (values.map .forced)

/-- The list of the characters of a text. -/
def addText (s : Store) (text : String) : Value × Store :=
  s.addForced (text.toList.map .char)

end Store

end LazyExpr
