/-
LazyExpr/Proofs/Reference.lean

What things refer to.

Values hold references: to instances, to the names and the body of a function,
and, in suspended elements, to a node and the scope it is to be evaluated in.
`Value.Mentions` finds them, through the forced elements of lists; it does not
follow them into the store.  `Value.Within D` says that all of them lie in a set
`D`.  In the store, a scope points to what its bound values refer to and an
instance to what its fields refer to; for each change to the store there is a lemma
that says which of these links are new.

A set of references is a likeness: equality, of things within the set.  Values
are alike in it when they are the same value and within the set
(`onValue_within`), and so for everything else that is made of references.
-/
import LazyExpr.Proofs.Likeness

namespace LazyExpr

/-- What can be referred to. -/
inductive Ref where
  | name (n : Name)
  | number (a : NumberId)
  /-- A node that may be evaluated. -/
  | node (n : NodeId)
  /-- A node that may be suspended. -/
  | suspended (n : NodeId)
  | scope (s : ScopeId)
  | data (i : InstanceId)

/-! ### References of values -/

def Function.refs (f : Function) : List Ref :=
  .name f.name :: .node f.body :: f.params.map .name

mutual

/-- What a value refers to. -/
inductive Value.Mentions : Value → Ref → Prop
  | data (i : InstanceId) : Value.Mentions (.data i) (.data i)
  | function {f : Function} {r : Ref} : r ∈ f.refs → Value.Mentions (.function f) r
  | item {i : ListId} {ts : List Thunk} {t : Thunk} {r : Ref} :
      t ∈ ts → Thunk.Mentions t r → Value.Mentions (.list i ts) r

/-- What a thunk refers to. -/
inductive Thunk.Mentions : Thunk → Ref → Prop
  | forced {v : Value} {r : Ref} : Value.Mentions v r → Thunk.Mentions (.forced v) r
  | node (n : NodeId) (s : ScopeId) : Thunk.Mentions (.deferred n s) (.suspended n)
  | scope (n : NodeId) (s : ScopeId) : Thunk.Mentions (.deferred n s) (.scope s)

end

/-- A value refers to nothing outside of a set. -/
def Value.Within (D : Ref → Prop) (v : Value) : Prop := ∀ r, v.Mentions r → D r

def Thunk.Within (D : Ref → Prop) (t : Thunk) : Prop := ∀ r, t.Mentions r → D r

/-- An instance and its fields refer to nothing outside of a set. -/
structure Instance.Within (D : Ref → Prop) (d : Instance) : Prop where
  type : D (.name d.type)
  variant : D (.name d.variant)
  fields : ∀ f ∈ d.fields, D (.name f.1) ∧ f.2.Within D

def Variant.refs (v : Variant) : List Ref := .name v.name :: v.fields.map .name

def DataType.refs (t : DataType) : List Ref := .name t.name :: t.variants.flatMap Variant.refs

/-! ### References of nodes -/

/-- The nodes that are evaluated as parts of the whole, in its scope. -/
def Kind.children : Kind → List NodeId
  | .assign _ value _ => [value]
  | .seq statements result => result :: statements
  | .ifElse condition whenTrue whenFalse => [condition, whenTrue, whenFalse]
  | .call callee args => callee :: args
  | .binary _ left right => [left, right]
  | .index source position => [source, position]
  | .indexAssign _ position value => [position, value]
  | .field receiver _ => [receiver]
  | .fieldAssign receiver _ value => [receiver, value]
  | .intrinsic _ args => args
  | _ => []

/-- What else a kind of node refers to. -/
def Kind.refs : Kind → List Ref
  | .number a => [.number a]
  | .text content => [.name content]
  | .ident name => [.name name]
  | .assign name _ _ => [.name name]
  | .lambda name params body => Function.refs ⟨name, params, body⟩
  | .list items => items.map .suspended
  | .indexAssign target _ _ => [.name target]
  | .field _ label => [.name label]
  | .fieldAssign _ label _ => [.name label]
  | .declare type variants => DataType.refs ⟨type, variants⟩
  | .construct type variant fields =>
    .name type :: .name variant :: fields.flatMap fun f => [.name f.1, .suspended f.2]
  | _ => []

/-- The node that a reference is to. -/
def Ref.node? : Ref → Option NodeId
  | .node n => some n
  | .suspended n => some n
  | _ => none

/-- All nodes that a kind of node mentions: its children, what it suspends, and the body
of a function. -/
def Kind.parts (k : Kind) : List NodeId := k.children ++ k.refs.filterMap Ref.node?

/-- A reference into the program, not into a store. -/
def Ref.InProgram : Ref → Prop
  | .scope _ => False
  | .data _ => False
  | _ => True

theorem Function.inProgram {f : Function} {r : Ref} (h : r ∈ f.refs) : r.InProgram := by
  simp only [Function.refs, List.mem_cons, List.mem_map] at h
  rcases h with rfl | rfl | ⟨n, -, rfl⟩
  · trivial
  · trivial
  · trivial

theorem Variant.inProgram {v : Variant} {r : Ref} (h : r ∈ v.refs) : r.InProgram := by
  simp only [Variant.refs, List.mem_cons, List.mem_map] at h
  rcases h with rfl | ⟨n, -, rfl⟩
  · trivial
  · trivial

theorem DataType.inProgram {t : DataType} {r : Ref} (h : r ∈ t.refs) : r.InProgram := by
  simp only [DataType.refs, List.mem_cons, List.mem_flatMap] at h
  rcases h with rfl | ⟨v, -, hr⟩
  · trivial
  · exact v.inProgram hr

/-- The text of a program refers to nothing in a store. -/
theorem Kind.inProgram {k : Kind} {r : Ref} (h : r ∈ k.refs) : r.InProgram := by
  cases k with
  | lambda name params body => exact Function.inProgram h
  | list items =>
    obtain ⟨n, -, rfl⟩ := List.mem_map.1 h
    trivial
  | declare type variants => exact DataType.inProgram h
  | construct type variant fields =>
    simp only [Kind.refs, List.mem_cons, List.mem_flatMap, List.not_mem_nil, or_false] at h
    rcases h with rfl | rfl | ⟨f, -, rfl | rfl⟩
    · trivial
    · trivial
    · trivial
    · trivial
  | number a | text n | ident n | assign n v m | indexAssign n i v | field e n
  | fieldAssign e n v =>
    obtain rfl := List.mem_singleton.1 h
    trivial
  | bool b | char c | void | seq ss e | ifElse a b e | call f as | binary op a b | index a i
  | intrinsic f as => cases h

/-! ### References of a store -/

/-- One thing in the store refers to another. -/
inductive Store.Points (σ : Store) : Ref → Ref → Prop
  | bound {s : ScopeId} {n : Name} {b : Binding} {r : Ref} :
      (σ.bindings s).find? n = some b → b.value.Mentions r → σ.Points (.scope s) r
  | field {i : InstanceId} {f : Name × Thunk} {r : Ref} :
      f ∈ (σ.instanceAt i).fields → f.2.Mentions r → σ.Points (.data i) r

namespace Store

variable {σ : Store} {r r' : Ref}

theorem points_define {s : ScopeId} {n : Name} {b : Binding}
    (h : (σ.define s n b).Points r r') :
    σ.Points r r' ∨ r = .scope s ∧ b.value.Mentions r' := by
  cases h with
  | bound hb hr =>
    rw [find?_define] at hb
    split at hb
    · next e =>
      obtain ⟨⟨rfl, -⟩, rfl⟩ := e
      cases hb
      exact .inr ⟨rfl, hr⟩
    · exact .inl (.bound hb hr)
  | field hf hr => exact .inl (.field hf hr)

theorem points_copyScope {s : ScopeId} (h : (σ.copyScope s).2.Points r r') :
    σ.Points r r' ∨ σ.Points (.scope s) r' := by
  cases h with
  | bound hb hr =>
    rw [bindings_copyScope] at hb
    split at hb
    · exact .inr (.bound hb hr)
    · exact .inl (.bound hb hr)
  | field hf hr => exact .inl (.field hf hr)

theorem points_addList {ts : List Thunk} (h : (σ.addList ts).2.Points r r') : σ.Points r r' := by
  cases h with
  | bound hb hr => exact .bound hb hr
  | field hf hr => exact .field hf hr

theorem points_setField {i : InstanceId} {n : Name} {t : Thunk}
    (h : (σ.setField i n t).Points r r') : σ.Points r r' ∨ r = .data i ∧ t.Mentions r' := by
  cases h with
  | bound hb hr => exact .inl (.bound hb hr)
  | field hf hr =>
    rw [instanceAt_setField] at hf
    split at hf
    · next e =>
      subst e
      rcases Instance.mem_replaceField hf with hf | rfl
      · exact .inl (.field hf hr)
      · exact .inr ⟨rfl, hr⟩
    · exact .inl (.field hf hr)

theorem points_addInstance {d : Instance} (h : (σ.addInstance d).2.Points r r') :
    σ.Points r r' ∨ ∃ f ∈ d.fields, f.2.Mentions r' := by
  cases h with
  | bound hb hr => exact .inl (.bound hb hr)
  | field hf hr =>
    rw [instanceAt_addInstance] at hf
    split at hf
    · exact .inr ⟨_, hf, hr⟩
    · exact .inl (.field hf hr)

end Store

/-! ### What is like itself -/

namespace Likeness

variable {L : Likeness}

/-- A reference that stands for itself. -/
def Self (L : Likeness) : Ref → Prop
  | .name n => L.name n n
  | .number a => L.number a a
  | .node n => L.node n n
  | .suspended n => L.suspended n n
  | .scope s => L.scope s s
  | .data i => L.data i i

theorem onFunction_self {f : Function} (h : ∀ r ∈ f.refs, L.Self r) : L.OnFunction f f := by
  simp only [Function.refs, List.forall_mem_cons, List.forall_mem_map] at h
  exact ⟨h.1, List.forall₂_same.2 h.2.2, h.2.1⟩

theorem onVariant_self {v : Variant} (h : ∀ r ∈ v.refs, L.Self r) : L.OnVariant v v := by
  simp only [Variant.refs, List.forall_mem_cons, List.forall_mem_map] at h
  exact ⟨h.1, List.forall₂_same.2 h.2⟩

theorem onDataType_self {t : DataType} (h : ∀ r ∈ t.refs, L.Self r) : L.OnDataType t t := by
  simp only [DataType.refs, List.forall_mem_cons, List.forall_mem_flatMap] at h
  exact ⟨h.1, List.forall₂_same.2 fun v hv => onVariant_self (h.2 v hv)⟩

/-- A kind is like itself when its children may be evaluated and what else it
refers to stands for itself. -/
theorem onKind_self {child : NodeId → NodeId → Prop} {k : Kind}
    (hc : ∀ n ∈ k.children, child n n) (hr : ∀ r ∈ k.refs, L.Self r) : L.OnKind child k k := by
  have hlist : ∀ ns : List NodeId, (∀ n ∈ ns, child n n) → List.Forall₂ child ns ns :=
    fun _ h => List.forall₂_same.2 h
  cases k with
  | number a => exact .number (hr _ List.mem_cons_self)
  | bool b => exact .bool b
  | char c => exact .char c
  | text content => exact .text (hr _ List.mem_cons_self)
  | void => exact .void
  | ident name => exact .ident (hr _ List.mem_cons_self)
  | assign name value m => exact .assign m (hr _ List.mem_cons_self) (hc _ List.mem_cons_self)
  | seq statements result =>
    exact .seq (hlist _ fun n hn => hc n (List.mem_cons_of_mem _ hn)) (hc _ List.mem_cons_self)
  | ifElse a b e =>
    exact .ifElse (hc a (by simp [Kind.children])) (hc b (by simp [Kind.children]))
      (hc e (by simp [Kind.children]))
  | lambda name params body => exact .lambda (onFunction_self hr)
  | call callee args =>
    exact .call (hc _ List.mem_cons_self) (hlist _ fun n hn => hc n (List.mem_cons_of_mem _ hn))
  | binary op a b =>
    exact .binary op (hc a (by simp [Kind.children])) (hc b (by simp [Kind.children]))
  | list items =>
    exact .list (List.forall₂_same.2 fun n hn => hr _ (List.mem_map_of_mem hn))
  | index a i => exact .index (hc a (by simp [Kind.children])) (hc i (by simp [Kind.children]))
  | indexAssign target i v =>
    exact .indexAssign (hr _ List.mem_cons_self) (hc i (by simp [Kind.children]))
      (hc v (by simp [Kind.children]))
  | field r label => exact .field (hc r List.mem_cons_self) (hr _ List.mem_cons_self)
  | fieldAssign r label v =>
    exact .fieldAssign (hc r List.mem_cons_self) (hr _ List.mem_cons_self)
      (hc v (by simp [Kind.children]))
  | declare type variants => exact .declare (onDataType_self hr)
  | construct type variant fields =>
    simp only [Kind.refs, List.forall_mem_cons, List.forall_mem_flatMap] at hr
    obtain ⟨htype, hvariant, hfields⟩ := hr
    exact .construct htype hvariant
      (List.forall₂_same.2 fun f hf => ⟨(hfields f hf).1, (hfields f hf).2.1⟩)
  | intrinsic f args => exact .intrinsic f (hlist _ hc)

end Likeness

/-! ### The likeness of a set -/

/-- Equality within a set of references. -/
def Likeness.within (D : Ref → Prop) : Likeness where
  name a b := a = b ∧ D (.name a)
  number a b := a = b ∧ D (.number a)
  node a b := a = b ∧ D (.node a)
  suspended a b := a = b ∧ D (.suspended a)
  scope a b := a = b ∧ D (.scope a)
  data a b := a = b ∧ D (.data a)
  list a b := a = b

namespace Likeness

variable {D : Ref → Prop}

theorem within_mono {E : Ref → Prop} (h : ∀ {r}, D r → E r) : (within D).Grows (within E) where
  name e := ⟨e.1, h e.2⟩
  number e := ⟨e.1, h e.2⟩
  node e := ⟨e.1, h e.2⟩
  suspended e := ⟨e.1, h e.2⟩
  scope e := ⟨e.1, h e.2⟩
  data e := ⟨e.1, h e.2⟩
  list e := e

theorem self_within {r : Ref} : (within D).Self r ↔ D r := by
  cases r <;> simp [Self, within]

theorem forall₂_within {α : Type} {R : α → α → Prop} {P : α → Prop}
    (hR : ∀ a b, R a b ↔ a = b ∧ P a) {xs ys : List α} :
    List.Forall₂ R xs ys ↔ xs = ys ∧ ∀ a ∈ xs, P a := by
  constructor
  · intro h
    induction h with
    | nil => simp
    | cons hab _ ih =>
      obtain ⟨rfl, ha⟩ := (hR _ _).1 hab
      obtain ⟨rfl, hs⟩ := ih
      exact ⟨rfl, List.forall_mem_cons.2 ⟨ha, hs⟩⟩
  · rintro ⟨rfl, h⟩
    exact List.forall₂_same.2 fun a ha => (hR a a).2 ⟨rfl, h a ha⟩

theorem names_within {ns ms : List Name} :
    List.Forall₂ (within D).name ns ms ↔ ns = ms ∧ ∀ n ∈ ns, D (.name n) :=
  forall₂_within fun _ _ => Iff.rfl

theorem onFunction_within {f g : Function} :
    (within D).OnFunction f g ↔ f = g ∧ ∀ r ∈ f.refs, D r := by
  constructor
  · rintro ⟨hn, hps, hb⟩
    obtain ⟨n, ps, b⟩ := f
    obtain ⟨m, qs, d⟩ := g
    obtain ⟨rfl, hparams⟩ := names_within.1 hps
    obtain ⟨rfl, hname⟩ := hn
    obtain ⟨rfl, hbody⟩ := hb
    refine ⟨rfl, ?_⟩
    simpa [Function.refs] using ⟨hname, hbody, hparams⟩
  · rintro ⟨rfl, h⟩
    exact onFunction_self fun r hr => self_within.2 (h r hr)

/-! ### Values and instances within a set -/

theorem within_list {i : ListId} {ts : List Thunk} :
    (Value.list i ts).Within D ↔ ∀ t ∈ ts, t.Within D := by
  constructor
  · exact fun h t ht r hr => h r (.item ht hr)
  · intro h r hr
    cases hr with
    | item ht hr => exact h _ ht r hr

theorem within_forced {v : Value} : (Thunk.forced v).Within D ↔ v.Within D := by
  constructor
  · exact fun h r hr => h r (.forced hr)
  · intro h r hr
    cases hr with
    | forced hr => exact h r hr

theorem within_deferred {n : NodeId} {s : ScopeId} :
    (Thunk.deferred n s).Within D ↔ D (.suspended n) ∧ D (.scope s) := by
  constructor
  · exact fun h => ⟨h _ (.node n s), h _ (.scope n s)⟩
  · rintro ⟨hn, hs⟩ r hr
    cases hr with
    | node => exact hn
    | scope => exact hs

mutual

theorem within_of_onValue {v w : Value} : (within D).OnValue v w → v = w ∧ v.Within D
  | .number _ => ⟨rfl, by rintro r ⟨⟩⟩
  | .bool _ => ⟨rfl, by rintro r ⟨⟩⟩
  | .char _ => ⟨rfl, by rintro r ⟨⟩⟩
  | .void => ⟨rfl, by rintro r ⟨⟩⟩
  | .data h => ⟨congrArg _ h.1, by rintro r ⟨⟩; exact h.2⟩
  | .function h => by
    obtain ⟨rfl, hr⟩ := onFunction_within.1 h
    refine ⟨rfl, ?_⟩
    rintro r ⟨⟩
    exact hr _ ‹_›
  | .list hi h => by
    obtain ⟨rfl, hts⟩ := within_of_onThunks h
    exact ⟨congrArg (Value.list · _) hi, within_list.2 hts⟩

theorem within_of_onThunk {t u : Thunk} : (within D).OnThunk t u → t = u ∧ t.Within D
  | .forced h => by
    obtain ⟨rfl, hv⟩ := within_of_onValue h
    exact ⟨rfl, within_forced.2 hv⟩
  | .deferred hn hs => by
    obtain ⟨rfl, hnode⟩ := hn
    obtain ⟨rfl, hscope⟩ := hs
    exact ⟨rfl, within_deferred.2 ⟨hnode, hscope⟩⟩

theorem within_of_onThunks {ts us : List Thunk} :
    (within D).OnThunks ts us → ts = us ∧ ∀ t ∈ ts, t.Within D
  | .nil => ⟨rfl, by simp⟩
  | .cons ht hts => by
    obtain ⟨rfl, hhead⟩ := within_of_onThunk ht
    obtain ⟨rfl, htail⟩ := within_of_onThunks hts
    exact ⟨rfl, List.forall_mem_cons.2 ⟨hhead, htail⟩⟩

end

mutual

theorem onValue_of_within : (v : Value) → v.Within D → (within D).OnValue v v
  | .number n, _ => .number n
  | .bool b, _ => .bool b
  | .char c, _ => .char c
  | .void, _ => .void
  | .data i, h => .data ⟨rfl, h _ (.data i)⟩
  | .function _, h => .function (onFunction_within.2 ⟨rfl, fun r hr => h r (.function hr)⟩)
  | .list _ ts, h => .list rfl (onThunks_of_within ts (within_list.1 h))

theorem onThunk_of_within : (t : Thunk) → t.Within D → (within D).OnThunk t t
  | .forced v, h => .forced (onValue_of_within v (within_forced.1 h))
  | .deferred _ _, h =>
    .deferred ⟨rfl, (within_deferred.1 h).1⟩ ⟨rfl, (within_deferred.1 h).2⟩

theorem onThunks_of_within : (ts : List Thunk) → (∀ t ∈ ts, t.Within D) →
    (within D).OnThunks ts ts
  | [], _ => .nil
  | t :: ts, h =>
    .cons (onThunk_of_within t (h t List.mem_cons_self))
      (onThunks_of_within ts fun u hu => h u (List.mem_cons_of_mem t hu))

end

theorem onValue_within {v w : Value} : (within D).OnValue v w ↔ v = w ∧ v.Within D :=
  ⟨within_of_onValue, by rintro ⟨rfl, h⟩; exact onValue_of_within v h⟩

theorem onThunk_within {t u : Thunk} : (within D).OnThunk t u ↔ t = u ∧ t.Within D :=
  ⟨within_of_onThunk, by rintro ⟨rfl, h⟩; exact onThunk_of_within t h⟩

theorem onBinding_within {b b' : Binding} :
    (within D).OnBinding b b' ↔ b = b' ∧ b.value.Within D := by
  constructor
  · rintro ⟨hv, hm⟩
    obtain ⟨v, m⟩ := b
    obtain ⟨v', m'⟩ := b'
    obtain ⟨rfl, hvalue⟩ := onValue_within.1 hv
    obtain rfl : m = m' := hm
    exact ⟨rfl, hvalue⟩
  · rintro ⟨rfl, h⟩
    exact ⟨onValue_within.2 ⟨rfl, h⟩, rfl⟩

theorem onInstance_within {d d' : Instance} :
    (within D).OnInstance d d' ↔ d = d' ∧ d.Within D := by
  have hfield : ∀ f f' : Name × Thunk, (within D).OnField f f' ↔
      f = f' ∧ D (.name f.1) ∧ f.2.Within D := by
    rintro ⟨n, t⟩ ⟨n', t'⟩
    constructor
    · rintro ⟨⟨rfl, hn⟩, ht⟩
      obtain ⟨rfl, hthunk⟩ := onThunk_within.1 ht
      exact ⟨rfl, hn, hthunk⟩
    · rintro ⟨⟨⟩, hn, ht⟩
      exact ⟨⟨rfl, hn⟩, onThunk_within.2 ⟨rfl, ht⟩⟩
  constructor
  · rintro ⟨ht, hv, hfs⟩
    obtain ⟨t, v, fs⟩ := d
    obtain ⟨t', v', fs'⟩ := d'
    obtain ⟨rfl, hfields⟩ := (forall₂_within hfield).1 hfs
    obtain ⟨rfl, htype⟩ := ht
    obtain ⟨rfl, hvariant⟩ := hv
    exact ⟨rfl, htype, hvariant, hfields⟩
  · rintro ⟨rfl, h⟩
    exact ⟨⟨rfl, h.type⟩, ⟨rfl, h.variant⟩, (forall₂_within hfield).2 ⟨rfl, h.fields⟩⟩

theorem onVariant_within {v v' : Variant} :
    (within D).OnVariant v v' ↔ v = v' ∧ ∀ r ∈ v.refs, D r := by
  constructor
  · rintro ⟨hn, hfs⟩
    obtain ⟨n, fs⟩ := v
    obtain ⟨n', fs'⟩ := v'
    obtain ⟨rfl, hfields⟩ := names_within.1 hfs
    obtain ⟨rfl, hname⟩ := hn
    refine ⟨rfl, ?_⟩
    simpa [Variant.refs] using ⟨hname, hfields⟩
  · rintro ⟨rfl, h⟩
    exact onVariant_self fun r hr => self_within.2 (h r hr)

theorem onDataType_within {t t' : DataType} :
    (within D).OnDataType t t' ↔ t = t' ∧ ∀ r ∈ t.refs, D r := by
  constructor
  · rintro ⟨hn, hvs⟩
    obtain ⟨n, vs⟩ := t
    obtain ⟨n', vs'⟩ := t'
    obtain ⟨rfl, hvariants⟩ := (forall₂_within fun _ _ => onVariant_within).1 hvs
    obtain ⟨rfl, hname⟩ := hn
    refine ⟨rfl, ?_⟩
    simp only [DataType.refs, List.forall_mem_cons, List.forall_mem_flatMap]
    exact ⟨hname, hvariants⟩
  · rintro ⟨rfl, h⟩
    exact onDataType_self fun r hr => self_within.2 (h r hr)

/-! ### Nodes within a set -/

theorem onInits_within {fs fs' : List (Name × NodeId)} :
    List.Forall₂ (within D).OnInit fs fs' ↔
      fs = fs' ∧ ∀ f ∈ fs, D (.name f.1) ∧ D (.suspended f.2) := by
  refine forall₂_within ?_
  rintro ⟨n, i⟩ ⟨n', i'⟩
  constructor
  · rintro ⟨⟨rfl, hn⟩, ⟨rfl, hi⟩⟩
    exact ⟨rfl, hn, hi⟩
  · rintro ⟨⟨⟩, hn, hi⟩
    exact ⟨⟨rfl, hn⟩, ⟨rfl, hi⟩⟩

theorem onKind_within {child : NodeId → NodeId → Prop} {k : Kind}
    (hc : ∀ n ∈ k.children, child n n) (hr : ∀ r ∈ k.refs, D r) :
    (within D).OnKind child k k :=
  onKind_self hc fun r h => self_within.2 (hr r h)

/-- Kinds that are alike in a set are one kind, and what it mentions lies in the set. -/
theorem within_of_onKind {k k' : Kind} (h : (within D).OnKind (within D).node k k') :
    k = k' ∧ (∀ n ∈ k.children, D (.node n)) ∧ ∀ r ∈ k.refs, D r := by
  have hnodes : ∀ {ns ms}, List.Forall₂ (within D).node ns ms → ns = ms ∧ ∀ n ∈ ns, D (.node n) :=
    (forall₂_within fun _ _ => Iff.rfl).1
  cases h with
  | number ha =>
    obtain ⟨rfl, ha⟩ := ha
    exact ⟨rfl, nofun, by simpa [Kind.refs] using ha⟩
  | bool b => exact ⟨rfl, nofun, nofun⟩
  | char c => exact ⟨rfl, nofun, nofun⟩
  | text hn =>
    obtain ⟨rfl, hn⟩ := hn
    exact ⟨rfl, nofun, by simpa [Kind.refs] using hn⟩
  | void => exact ⟨rfl, nofun, nofun⟩
  | ident hn =>
    obtain ⟨rfl, hn⟩ := hn
    exact ⟨rfl, nofun, by simpa [Kind.refs] using hn⟩
  | assign m hn hv =>
    obtain ⟨rfl, hn⟩ := hn
    obtain ⟨rfl, hv⟩ := hv
    exact ⟨rfl, by simpa [Kind.children] using hv, by simpa [Kind.refs] using hn⟩
  | seq hss hr =>
    obtain ⟨rfl, hmem⟩ := hnodes hss
    obtain ⟨rfl, hr⟩ := hr
    exact ⟨rfl, List.forall_mem_cons.2 ⟨hr, hmem⟩, nofun⟩
  | ifElse ha hb he =>
    obtain ⟨rfl, ha⟩ := ha
    obtain ⟨rfl, hb⟩ := hb
    obtain ⟨rfl, he⟩ := he
    exact ⟨rfl, by simpa [Kind.children] using ⟨ha, hb, he⟩, nofun⟩
  | lambda hf =>
    obtain ⟨⟨⟩, hrefs⟩ := onFunction_within.1 hf
    exact ⟨rfl, nofun, hrefs⟩
  | call hf has =>
    obtain ⟨rfl, hf⟩ := hf
    obtain ⟨rfl, hmem⟩ := hnodes has
    exact ⟨rfl, List.forall_mem_cons.2 ⟨hf, hmem⟩, nofun⟩
  | binary op ha hb =>
    obtain ⟨rfl, ha⟩ := ha
    obtain ⟨rfl, hb⟩ := hb
    exact ⟨rfl, by simpa [Kind.children] using ⟨ha, hb⟩, nofun⟩
  | list his =>
    obtain ⟨rfl, hmem⟩ := (forall₂_within fun _ _ => Iff.rfl).1 his
    exact ⟨rfl, nofun, List.forall_mem_map.2 hmem⟩
  | index ha hi =>
    obtain ⟨rfl, ha⟩ := ha
    obtain ⟨rfl, hi⟩ := hi
    exact ⟨rfl, by simpa [Kind.children] using ⟨ha, hi⟩, nofun⟩
  | indexAssign hn hi hv =>
    obtain ⟨rfl, hn⟩ := hn
    obtain ⟨rfl, hi⟩ := hi
    obtain ⟨rfl, hv⟩ := hv
    exact ⟨rfl, by simpa [Kind.children] using ⟨hi, hv⟩, by simpa [Kind.refs] using hn⟩
  | field hr hn =>
    obtain ⟨rfl, hr⟩ := hr
    obtain ⟨rfl, hn⟩ := hn
    exact ⟨rfl, by simpa [Kind.children] using hr, by simpa [Kind.refs] using hn⟩
  | fieldAssign hr hn hv =>
    obtain ⟨rfl, hr⟩ := hr
    obtain ⟨rfl, hn⟩ := hn
    obtain ⟨rfl, hv⟩ := hv
    exact ⟨rfl, by simpa [Kind.children] using ⟨hr, hv⟩, by simpa [Kind.refs] using hn⟩
  | declare ht =>
    obtain ⟨⟨⟩, hrefs⟩ := onDataType_within.1 ht
    exact ⟨rfl, nofun, hrefs⟩
  | construct ht hv hfs =>
    obtain ⟨rfl, ht⟩ := ht
    obtain ⟨rfl, hv⟩ := hv
    obtain ⟨rfl, hmem⟩ := onInits_within.1 hfs
    refine ⟨rfl, nofun, List.forall_mem_cons.2 ⟨ht, List.forall_mem_cons.2 ⟨hv, ?_⟩⟩⟩
    refine List.forall_mem_flatMap.2 fun f hf => ?_
    simpa using hmem f hf
  | intrinsic f has =>
    obtain ⟨rfl, hmem⟩ := hnodes has
    exact ⟨rfl, hmem, nofun⟩

end Likeness

end LazyExpr
