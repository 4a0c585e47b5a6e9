/-
LazyExpr/Proofs/Extent.lean

References into a store are given out by it.

Tables, instances and lists are numbered in the order in which they are made.  The
extent of a store is how many of each there are, and what refers to nothing beyond an
extent is issued in it.  Whoever starts with references that have been issued gets no
others: evaluation only passes on what it finds, and what it makes is numbered next.

What is issued grows while a step runs, so this is no invariant with one set of
references.  `Extent.Agree` is a judgement about steps from all machines of at least
some extent, and what it says of the result is said at the extent that is there in the
end.  It compares two steps, which do the same from such machines; with a supervisor on
one side, this says that every machine in the middle of an evaluation has issued what it
refers to.  That evaluations satisfy it follows from a finer judgement, which also keeps
account of the elements of lists (`Ledger`).
-/
import LazyExpr.Proofs.Supervision

namespace LazyExpr

/-! ### What has been issued -/

/-- How many tables, instances and lists have been made. -/
structure Extent where
  scopes : Nat
  instances : Nat
  lists : Nat

/-- More has been made. -/
structure Extent.Grows (e e' : Extent) : Prop where
  scopes : e.scopes ≤ e'.scopes
  instances : e.instances ≤ e'.instances
  lists : e.lists ≤ e'.lists

theorem Extent.Grows.refl (e : Extent) : e.Grows e := ⟨Nat.le_refl _, Nat.le_refl _, Nat.le_refl _⟩

theorem Extent.Grows.trans {a b c : Extent} (h : a.Grows b) (h' : b.Grows c) : a.Grows c where
  scopes := Nat.le_trans h.scopes h'.scopes
  instances := Nat.le_trans h.instances h'.instances
  lists := Nat.le_trans h.lists h'.lists

def Store.extent (σ : Store) : Extent := ⟨σ.scopes.size, σ.instances.size, σ.lists⟩

mutual

/-- A value refers to tables, instances and lists that have been made. -/
inductive Value.Issued (e : Extent) : Value → Prop
  | number (n : Decimal) : Value.Issued e (.number n)
  | bool (b : Bool) : Value.Issued e (.bool b)
  | char (c : Char) : Value.Issued e (.char c)
  | list {i : ListId} {ts : List Thunk} : i.index < e.lists → (∀ t ∈ ts, Thunk.Issued e t) →
      Value.Issued e (.list i ts)
  | function (f : Function) : Value.Issued e (.function f)
  | data {i : InstanceId} : i.index < e.instances → Value.Issued e (.data i)
  | void : Value.Issued e .void

inductive Thunk.Issued (e : Extent) : Thunk → Prop
  | forced {v : Value} : Value.Issued e v → Thunk.Issued e (.forced v)
  | deferred {n : NodeId} {s : ScopeId} : s.index < e.scopes → Thunk.Issued e (.deferred n s)

end

def Instance.Issued (e : Extent) (d : Instance) : Prop := ∀ f ∈ d.fields, f.2.Issued e

/-- Everything in a store has been issued. -/
structure Store.Issued (σ : Store) : Prop where
  bound : ∀ {s n b}, (σ.bindings s).find? n = some b → b.value.Issued σ.extent
  fields : ∀ i, (σ.instanceAt i).Issued σ.extent

namespace Store

variable {σ : Store}

theorem extent_define (s : ScopeId) (n : Name) (b : Binding) : (σ.define s n b).extent = σ.extent := by
  simp [extent, define, setBindings]

theorem extent_setField (i : InstanceId) (n : Name) (t : Thunk) :
    (σ.setField i n t).extent = σ.extent := by
  simp [extent, setField]

theorem extent_copyScope (s : ScopeId) : σ.extent.Grows (σ.copyScope s).2.extent :=
  ⟨by simp [extent], Nat.le_refl _, Nat.le_refl _⟩

theorem extent_addList (ts : List Thunk) : σ.extent.Grows (σ.addList ts).2.extent :=
  ⟨Nat.le_refl _, Nat.le_refl _, Nat.le_succ _⟩

theorem extent_addInstance (d : Instance) : σ.extent.Grows (σ.addInstance d).2.extent :=
  ⟨Nat.le_refl _, by simp [extent], Nat.le_refl _⟩

end Store

/-- All that was in a store is as it was, and there may be more. -/
structure Store.Extends (σ σ' : Store) : Prop where
  extent : σ.extent.Grows σ'.extent
  bindings_eq : ∀ s, s.index < σ.scopes.size → σ'.bindings s = σ.bindings s
  instance_eq : ∀ i, i.index < σ.instances.size → σ'.instanceAt i = σ.instanceAt i

namespace Store

variable {σ σ' σ'' : Store}

theorem Extends.refl (σ : Store) : σ.Extends σ := ⟨.refl _, fun _ _ => rfl, fun _ _ => rfl⟩

theorem Extends.trans (h : σ.Extends σ') (h' : σ'.Extends σ'') : σ.Extends σ'' where
  extent := h.extent.trans h'.extent
  bindings_eq s hs :=
    (h'.bindings_eq s (Nat.lt_of_lt_of_le hs h.extent.scopes)).trans (h.bindings_eq s hs)
  instance_eq i hi :=
    (h'.instance_eq i (Nat.lt_of_lt_of_le hi h.extent.instances)).trans (h.instance_eq i hi)

theorem extends_addList (σ : Store) (ts : List Thunk) : σ.Extends (σ.addList ts).2 :=
  ⟨extent_addList ts, fun _ _ => rfl, fun _ _ => rfl⟩

theorem extends_addInstance (σ : Store) (d : Instance) : σ.Extends (σ.addInstance d).2 where
  extent := extent_addInstance d
  bindings_eq _ _ := rfl
  instance_eq i hi := by
    rw [instanceAt_addInstance, if_neg]
    rintro rfl
    exact Nat.lt_irrefl _ hi

end Store

/-- Everything that a machine refers to in its store has been issued. -/
structure Machine.Issued (m : Machine) : Prop where
  scope : m.scope.index < m.store.scopes.size
  store : m.store.Issued

/-- The supervisor leaves machines alone that have issued what they refer to.  Nothing is
said about what it does with others. -/
def Supervisor.SparesIssued (v : Supervisor) : Prop :=
  ∀ (n : NodeId) (x : Eval Value) (m : Machine), m.Issued → v n x m = x m

/-! ### The judgement -/

/-- What a step may leave behind: more has been issued, and the control is as it was. -/
structure Machine.Precedes (m m' : Machine) : Prop where
  issued : m'.Issued
  extent : m.store.extent.Grows m'.store.extent
  control : m'.control = m.control

namespace Extent

/-- How a step may end, with a property of the result in the extent that is there then. -/
inductive Ends {α : Type} (P : Extent → α → Prop) (m : Machine) :
    EStateM.Result Stop Machine α → Prop
  | ok {a m'} : m.Precedes m' → P m'.store.extent a → Ends P m (.ok a m')
  | error {e m'} : m.Precedes m' → Ends P m (.error e m')

/-- From machines that have issued what they refer to, and at least this much, two steps
do the same, and issue what they leave behind. -/
def Agree (e : Extent) {α : Type} (P : Extent → α → Prop) (x y : Eval α) : Prop :=
  ∀ m, m.Issued → e.Grows m.store.extent → y m = x m ∧ Ends P m (x m)

end Extent

end LazyExpr
