/-
LazyExpr/Proofs/Likeness.lean

When the things of two evaluations are alike.

A likeness says which names, nodes, scopes, instances and lists of one
evaluation stand for which of another.  It extends to everything that is made of
them: functions, values and thunks, bindings, instances, declarations, and the
kinds of nodes.  Numbers, truth values and characters are only like themselves.

Nothing is asked of the relations here.  With equality everywhere, values are
alike when they are equal; with equality on some set of references, a value is
like itself exactly when it refers to nothing outside of that set; with the graph
of a renaming, values are alike when one is the renamed other.
-/
import LazyExpr.Evaluation
import Mathlib.Data.List.Forall2

namespace LazyExpr

/-- Which names, numbers and nodes of one program stand for which of another. -/
structure Vocabulary where
  name : Name → Name → Prop
  number : NumberId → NumberId → Prop
  /-- Nodes that may be evaluated. -/
  node : NodeId → NodeId → Prop
  /-- Nodes that may be suspended. -/
  suspended : NodeId → NodeId → Prop

/-- Which things of one evaluation stand for which of another. -/
structure Likeness extends Vocabulary where
  scope : ScopeId → ScopeId → Prop
  data : InstanceId → InstanceId → Prop
  list : ListId → ListId → Prop

/-! ### Functions, declarations, nodes, thunks and instances -/

namespace Vocabulary

structure OnFunction (L : Vocabulary) (f g : Function) : Prop where
  name : L.name f.name g.name
  params : List.Forall₂ L.name f.params g.params
  body : L.node f.body g.body

structure OnVariant (L : Vocabulary) (v v' : Variant) : Prop where
  name : L.name v.name v'.name
  fields : List.Forall₂ L.name v.fields v'.fields

structure OnDataType (L : Vocabulary) (t t' : DataType) : Prop where
  name : L.name t.name t'.name
  variants : List.Forall₂ L.OnVariant t.variants t'.variants

/-- A field of a constructor and the node of its value. -/
structure OnInit (L : Vocabulary) (f f' : Name × NodeId) : Prop where
  name : L.name f.1 f'.1
  node : L.suspended f.2 f'.2

/-- Kinds of nodes are alike when what they mention is.  The nodes that are
evaluated in the scope of the whole are the children; the body of a function and
the nodes that are suspended are not among them. -/
inductive OnKind (L : Vocabulary) (child : NodeId → NodeId → Prop) : Kind → Kind → Prop
  | number {a b} : L.number a b → OnKind L child (.number a) (.number b)
  | bool (b) : OnKind L child (.bool b) (.bool b)
  | char (c) : OnKind L child (.char c) (.char c)
  | text {a b} : L.name a b → OnKind L child (.text a) (.text b)
  | void : OnKind L child .void .void
  | ident {n n'} : L.name n n' → OnKind L child (.ident n) (.ident n')
  | assign {n n' v v'} (m) : L.name n n' → child v v' →
      OnKind L child (.assign n v m) (.assign n' v' m)
  | seq {ss ss' r r'} : List.Forall₂ child ss ss' → child r r' →
      OnKind L child (.seq ss r) (.seq ss' r')
  | ifElse {a a' b b' e e'} : child a a' → child b b' → child e e' →
      OnKind L child (.ifElse a b e) (.ifElse a' b' e')
  | lambda {n n' ps ps' b b'} : L.OnFunction ⟨n, ps, b⟩ ⟨n', ps', b'⟩ →
      OnKind L child (.lambda n ps b) (.lambda n' ps' b')
  | call {f f' as as'} : child f f' → List.Forall₂ child as as' →
      OnKind L child (.call f as) (.call f' as')
  | binary {a a' b b'} (op) : child a a' → child b b' →
      OnKind L child (.binary op a b) (.binary op a' b')
  | list {is is'} : List.Forall₂ L.suspended is is' → OnKind L child (.list is) (.list is')
  | index {a a' i i'} : child a a' → child i i' →
      OnKind L child (.index a i) (.index a' i')
  | indexAssign {n n' i i' v v'} : L.name n n' → child i i' → child v v' →
      OnKind L child (.indexAssign n i v) (.indexAssign n' i' v')
  | field {r r' n n'} : child r r' → L.name n n' →
      OnKind L child (.field r n) (.field r' n')
  | fieldAssign {r r' n n' v v'} : child r r' → L.name n n' → child v v' →
      OnKind L child (.fieldAssign r n v) (.fieldAssign r' n' v')
  | declare {t t' vs vs'} : L.OnDataType ⟨t, vs⟩ ⟨t', vs'⟩ →
      OnKind L child (.declare t vs) (.declare t' vs')
  | construct {t t' v v' fs fs'} : L.name t t' → L.name v v' → List.Forall₂ L.OnInit fs fs' →
      OnKind L child (.construct t v fs) (.construct t' v' fs')
  | intrinsic {as as'} (f) : List.Forall₂ child as as' →
      OnKind L child (.intrinsic f as) (.intrinsic f as')

/-- Nodes are alike when their kinds are and they stand in the same place. -/
structure OnNode (L : Vocabulary) (child : NodeId → NodeId → Prop) (n n' : Node) : Prop where
  kind : L.OnKind child n.kind n'.kind
  span : n.span = n'.span

/-- Thunks are alike when the values that they hold are, or the nodes and scopes that they
stand for. -/
inductive OnContent (L : Vocabulary) (scope : ScopeId → ScopeId → Prop)
    (value : Value → Value → Prop) : Thunk → Thunk → Prop
  | forced {v v' : Value} : value v v' → OnContent L scope value (.forced v) (.forced v')
  | deferred {n n' : NodeId} {s s' : ScopeId} : L.suspended n n' → scope s s' →
      OnContent L scope value (.deferred n s) (.deferred n' s')

/-- A field of an instance and what is in it. -/
structure OnSlot (L : Vocabulary) (thunk : Thunk → Thunk → Prop) (f f' : Name × Thunk) :
    Prop where
  name : L.name f.1 f'.1
  thunk : thunk f.2 f'.2

structure OnRecord (L : Vocabulary) (thunk : Thunk → Thunk → Prop) (d d' : Instance) :
    Prop where
  type : L.name d.type d'.type
  variant : L.name d.variant d'.variant
  fields : List.Forall₂ (L.OnSlot thunk) d.fields d'.fields

end Vocabulary

structure OnBound (value : Value → Value → Prop) (b b' : Binding) : Prop where
  value : value b.value b'.value
  mutability : b.mutability = b'.mutability

namespace Likeness

/-! ### Values -/

mutual

inductive OnValue (L : Likeness) : Value → Value → Prop
  | number (n : Decimal) : OnValue L (.number n) (.number n)
  | bool (b : Bool) : OnValue L (.bool b) (.bool b)
  | char (c : Char) : OnValue L (.char c) (.char c)
  | list {i j : ListId} {xs ys : List Thunk} :
      L.list i j → OnThunks L xs ys → OnValue L (.list i xs) (.list j ys)
  | function {f g : Function} : L.OnFunction f g → OnValue L (.function f) (.function g)
  | data {i j : InstanceId} : L.data i j → OnValue L (.data i) (.data j)
  | void : OnValue L .void .void

inductive OnThunk (L : Likeness) : Thunk → Thunk → Prop
  | forced {v w : Value} : OnValue L v w → OnThunk L (.forced v) (.forced w)
  | deferred {n n' : NodeId} {s s' : ScopeId} :
      L.suspended n n' → L.scope s s' → OnThunk L (.deferred n s) (.deferred n' s')

inductive OnThunks (L : Likeness) : List Thunk → List Thunk → Prop
  | nil : OnThunks L [] []
  | cons {t u : Thunk} {ts us : List Thunk} :
      OnThunk L t u → OnThunks L ts us → OnThunks L (t :: ts) (u :: us)

end

variable {L : Likeness}

theorem onThunks_iff {ts us : List Thunk} :
    L.OnThunks ts us ↔ List.Forall₂ L.OnThunk ts us := by
  constructor
  · intro h
    induction ts generalizing us with
    | nil => cases h; exact .nil
    | cons t ts ih =>
      cases h with
      | cons ht hts => exact .cons ht (ih hts)
  · intro h
    induction h with
    | nil => exact .nil
    | cons ht _ ih => exact .cons ht ih

theorem onThunk_iff {t u : Thunk} : L.OnThunk t u ↔ L.OnContent L.scope L.OnValue t u := by
  constructor
  · rintro (hv | ⟨hn, hs⟩)
    · exact .forced hv
    · exact .deferred hn hs
  · rintro (hv | ⟨hn, hs⟩)
    · exact .forced hv
    · exact .deferred hn hs

theorem OnValue.typeName_eq {v w : Value} (h : L.OnValue v w) : v.typeName = w.typeName := by
  cases h <;> rfl

/-! ### Bindings and instances -/

abbrev OnBinding (L : Likeness) : Binding → Binding → Prop := OnBound L.OnValue

abbrev OnField (L : Likeness) : Name × Thunk → Name × Thunk → Prop := L.OnSlot L.OnThunk

abbrev OnInstance (L : Likeness) : Instance → Instance → Prop := L.OnRecord L.OnThunk

/-- Replacing a field, where the names of fields are the same on both sides when the names
that they stand for are. -/
theorem OnInstance.setField {d d' : Instance} {n n' : Name} {t t' : Thunk}
    (hd : L.OnInstance d d') (hname : ∀ {a a'}, L.name a a' → (a == n) = (a' == n'))
    (hn : L.name n n') (ht : L.OnThunk t t') :
    L.OnInstance (d.setField n t) (d'.setField n' t') := by
  have hfields : ∀ {fs fs'}, List.Forall₂ L.OnField fs fs' →
      List.Forall₂ L.OnField (Instance.replaceField n t fs) (Instance.replaceField n' t' fs') := by
    intro fs fs' hfs
    induction hfs with
    | nil => exact .nil
    | cons hf hfs ih =>
      unfold Instance.replaceField
      rw [hname hf.name]
      split
      · exact .cons ⟨hn, ht⟩ hfs
      · exact .cons hf ih
  exact ⟨hd.type, hd.variant, hfields hd.fields⟩

/-! ### Likenesses that grow -/

/-- What is alike in one likeness is alike in another. -/
structure Grows (L M : Likeness) : Prop where
  name : ∀ {a b}, L.name a b → M.name a b
  number : ∀ {a b}, L.number a b → M.number a b
  node : ∀ {a b}, L.node a b → M.node a b
  suspended : ∀ {a b}, L.suspended a b → M.suspended a b
  scope : ∀ {a b}, L.scope a b → M.scope a b
  data : ∀ {a b}, L.data a b → M.data a b
  list : ∀ {a b}, L.list a b → M.list a b

namespace Grows

variable {L M N : Likeness}

theorem refl (L : Likeness) : L.Grows L := ⟨id, id, id, id, id, id, id⟩

theorem trans (h : L.Grows M) (h' : M.Grows N) : L.Grows N where
  name e := h'.name (h.name e)
  number e := h'.number (h.number e)
  node e := h'.node (h.node e)
  suspended e := h'.suspended (h.suspended e)
  scope e := h'.scope (h.scope e)
  data e := h'.data (h.data e)
  list e := h'.list (h.list e)

theorem onNames (h : L.Grows M) {ns ms : List Name} (e : List.Forall₂ L.name ns ms) :
    List.Forall₂ M.name ns ms :=
  e.imp fun _ _ => h.name

theorem onFunction (h : L.Grows M) {f g : Function} (e : L.OnFunction f g) : M.OnFunction f g :=
  ⟨h.name e.name, h.onNames e.params, h.node e.body⟩

mutual

theorem onValue (h : L.Grows M) {v w : Value} : L.OnValue v w → M.OnValue v w
  | .number n => .number n
  | .bool b => .bool b
  | .char c => .char c
  | .list hi hx => .list (h.list hi) (onThunks h hx)
  | .function hf => .function (h.onFunction hf)
  | .data hi => .data (h.data hi)
  | .void => .void

theorem onThunk (h : L.Grows M) {t u : Thunk} : L.OnThunk t u → M.OnThunk t u
  | .forced hv => .forced (onValue h hv)
  | .deferred hn hs => .deferred (h.suspended hn) (h.scope hs)

theorem onThunks (h : L.Grows M) {ts us : List Thunk} : L.OnThunks ts us → M.OnThunks ts us
  | .nil => .nil
  | .cons ht hts => .cons (onThunk h ht) (onThunks h hts)

end

theorem onBinding (h : L.Grows M) {b b' : Binding} (e : L.OnBinding b b') : M.OnBinding b b' :=
  ⟨h.onValue e.value, e.mutability⟩

theorem onInstance (h : L.Grows M) {d d' : Instance} (e : L.OnInstance d d') : M.OnInstance d d' :=
  ⟨h.name e.type, h.name e.variant, e.fields.imp fun _ _ f => ⟨h.name f.name, h.onThunk f.thunk⟩⟩

theorem onDataType (h : L.Grows M) {t t' : DataType} (e : L.OnDataType t t') : M.OnDataType t t' :=
  ⟨h.name e.name, e.variants.imp fun _ _ v => ⟨h.name v.name, h.onNames v.fields⟩⟩

theorem onKind (h : L.Grows M) {child child' : NodeId → NodeId → Prop}
    (hc : ∀ {a b}, child a b → child' a b) {k k' : Kind} (e : L.OnKind child k k') :
    M.OnKind child' k k' := by
  have hcs : ∀ {ns ms}, List.Forall₂ child ns ms → List.Forall₂ child' ns ms :=
    fun e => e.imp fun _ _ => hc
  cases e with
  | number a => exact .number (h.number a)
  | bool b => exact .bool b
  | char c => exact .char c
  | text n => exact .text (h.name n)
  | void => exact .void
  | ident n => exact .ident (h.name n)
  | assign m n v => exact .assign m (h.name n) (hc v)
  | seq ss r => exact .seq (hcs ss) (hc r)
  | ifElse a b e => exact .ifElse (hc a) (hc b) (hc e)
  | lambda f => exact .lambda (h.onFunction f)
  | call f as => exact .call (hc f) (hcs as)
  | binary op a b => exact .binary op (hc a) (hc b)
  | list is => exact .list (is.imp fun _ _ => h.suspended)
  | index a i => exact .index (hc a) (hc i)
  | indexAssign n i v => exact .indexAssign (h.name n) (hc i) (hc v)
  | field r n => exact .field (hc r) (h.name n)
  | fieldAssign r n v => exact .fieldAssign (hc r) (h.name n) (hc v)
  | declare t => exact .declare (h.onDataType t)
  | construct t v fs =>
    exact .construct (h.name t) (h.name v)
      (fs.imp fun _ _ f => ⟨h.name f.name, h.suspended f.node⟩)
  | intrinsic f as => exact .intrinsic f (hcs as)

end Grows

end Likeness

end LazyExpr
