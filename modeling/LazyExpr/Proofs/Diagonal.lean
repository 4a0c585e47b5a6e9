/-
LazyExpr/Proofs/Diagonal.lean

Judgements about one evaluation.

Where a judgement says something of a single evaluation, things stand for themselves alone,
and only those do that have some property in the world that is there.  `Diagonal` is what has
to be said about such a property; names and what a value is made of are dealt with here once
and for all.
-/
import LazyExpr.Proofs.Judgement
import LazyExpr.Proofs.Reference

namespace LazyExpr

/-- A property of values, scopes and instances in each world, and a set of references into
the program. -/
structure Diagonal (p : Program) where
  refs : Ref → Prop
  World : Type
  le : World → World → Prop
  value : World → Value → Prop
  scope : World → ScopeId → Prop
  data : World → InstanceId → Prop
  refs_name : ∀ n, refs (.name n)
  -- worlds
  le_trans : ∀ {a b c}, le a b → le b c → le a c
  value_mono : ∀ {w w' v}, le w w' → value w v → value w' v
  scope_mono : ∀ {w w' s}, le w w' → scope w s → scope w' s
  data_mono : ∀ {w w' i}, le w w' → data w i → data w' i
  -- values
  value_number : ∀ {w} n, value w (.number n)
  value_bool : ∀ {w} b, value w (.bool b)
  value_char : ∀ {w} c, value w (.char c)
  value_void : ∀ {w}, value w .void
  value_function : ∀ {w f}, (∀ r ∈ f.refs, refs r) → value w (.function f)
  refs_function : ∀ {w f}, value w (.function f) → ∀ r ∈ f.refs, refs r
  data_of_value : ∀ {w i}, value w (.data i) → data w i
  /-- The elements of a list hold values that have the property, or are suspended where they
  may be. -/
  forced : ∀ {w i ts v}, value w (.list i ts) → .forced v ∈ ts → value w v
  deferred : ∀ {w i ts n s}, value w (.list i ts) → .deferred n s ∈ ts →
    refs (.suspended n) ∧ scope w s

namespace Diagonal

variable {p : Program} (D : Diagonal p)

/-- What a thunk holds has the property, or it is suspended where it may be. -/
inductive OnThunk (V : D.World → Value → Prop) (w : D.World) : Thunk → Prop
  | forced {v : Value} : V w v → OnThunk V w (.forced v)
  | deferred {n : NodeId} {s : ScopeId} : D.refs (.suspended n) → D.scope w s →
      OnThunk V w (.deferred n s)

variable {D} {w : D.World}

theorem onThunk_of_mem {i : ListId} {ts : List Thunk} (h : D.value w (.list i ts)) {t : Thunk}
    (ht : t ∈ ts) : D.OnThunk D.value w t := by
  cases t with
  | forced v => exact .forced (D.forced h ht)
  | deferred n s => exact .deferred (D.deferred h ht).1 (D.deferred h ht).2

theorem onContent_iff {V : D.World → Value → Prop} {t t' : Thunk} :
    (Likeness.within D.refs).OnContent (fun s s' => s = s' ∧ D.scope w s)
      (fun v v' => v = v' ∧ V w v) t t' ↔ t = t' ∧ D.OnThunk V w t := by
  constructor
  · rintro (⟨rfl, hv⟩ | ⟨⟨rfl, hn⟩, ⟨rfl, hs⟩⟩)
    · exact ⟨rfl, .forced hv⟩
    · exact ⟨rfl, .deferred hn hs⟩
  · rintro ⟨rfl, hv | ⟨hn, hs⟩⟩
    · exact .forced ⟨rfl, hv⟩
    · exact .deferred ⟨rfl, hn⟩ ⟨rfl, hs⟩

variable (D)

/-- Equality of what has the property. -/
def relations : Relations p p where
  toVocabulary := (Likeness.within D.refs).toVocabulary
  World := D.World
  le := D.le
  value w v v' := v = v' ∧ D.value w v
  scope w s s' := s = s' ∧ D.scope w s
  own w s s' := s = s' ∧ D.scope w s
  data w i i' := i = i' ∧ D.data w i
  le_trans := D.le_trans
  value_mono hle h := ⟨h.1, D.value_mono hle h.2⟩
  scope_mono hle h := ⟨h.1, D.scope_mono hle h.2⟩
  own_mono hle h := ⟨h.1, D.scope_mono hle h.2⟩
  data_mono hle h := ⟨h.1, D.data_mono hle h.2⟩
  own_scope h := h
  text_eq h := congrArg p.names.text h.1
  empty_iff h := by rw [h.1]
  name_iff h h' := by rw [h.1, h'.1]
  node_iff h h' := by rw [h.1, h'.1]
  data_iff h h' := by rw [h.1, h'.1]
  list_iff := by
    rintro _ i i' j j' _ _ _ _ ⟨h, -⟩ ⟨h', -⟩
    cases h
    cases h'
    rfl
  value_number n := ⟨rfl, D.value_number n⟩
  value_bool b := ⟨rfl, D.value_bool b⟩
  value_char c := ⟨rfl, D.value_char c⟩
  value_void := ⟨rfl, D.value_void⟩
  value_function hf := by
    obtain ⟨rfl, hrefs⟩ := Likeness.onFunction_within.1 hf
    exact ⟨rfl, D.value_function hrefs⟩
  form := by
    rintro w v _ ⟨rfl, hv⟩
    cases v with
    | number n => exact .number n
    | bool b => exact .bool b
    | char c => exact .char c
    | list i ts =>
      exact .list (List.forall₂_same.2 fun t ht => onContent_iff.2 ⟨rfl, onThunk_of_mem hv ht⟩)
    | function f => exact .function (Likeness.onFunction_within.2 ⟨rfl, D.refs_function hv⟩)
    | data i => exact .data ⟨rfl, D.data_of_value hv⟩
    | void => exact .void

variable {D}

theorem thunk_iff {t t' : Thunk} :
    D.relations.thunk w t t' ↔ t = t' ∧ D.OnThunk D.value w t :=
  onContent_iff

theorem thunks_iff {ts ts' : List Thunk} :
    List.Forall₂ (D.relations.thunk w) ts ts' ↔ ts = ts' ∧ ∀ t ∈ ts, D.OnThunk D.value w t :=
  Likeness.forall₂_within fun _ _ => thunk_iff

theorem binding_self {b : Binding} (h : D.value w b.value) : D.relations.binding w b b :=
  ⟨⟨rfl, h⟩, rfl⟩

theorem eq_of_binding {b b' : Binding} (h : D.relations.binding w b b') : b = b' := by
  obtain ⟨v, m⟩ := b
  obtain ⟨v', m'⟩ := b'
  obtain ⟨⟨rfl, -⟩, rfl⟩ := h
  rfl

theorem bound_self {o : Option Binding} (h : ∀ b, o = some b → D.value w b.value) :
    Option.Rel (D.relations.binding w) o o := by
  cases o with
  | none => exact .none
  | some b => exact .some (binding_self (h b rfl))

theorem record_self {d : Instance} (h : ∀ f ∈ d.fields, D.OnThunk D.value w f.2) :
    D.relations.record w d d where
  type := ⟨rfl, D.refs_name _⟩
  variant := ⟨rfl, D.refs_name _⟩
  fields := List.forall₂_same.2 fun f hf => ⟨⟨rfl, D.refs_name _⟩, thunk_iff.2 ⟨rfl, h f hf⟩⟩

/-- A kind stands for itself when its children and what else it refers to do. -/
theorem onKind_self {child : NodeId → NodeId → Prop} {k : Kind}
    (hc : ∀ n ∈ k.children, child n n) (hr : ∀ r ∈ k.refs, D.refs r) :
    D.relations.OnKind child k k :=
  Likeness.onKind_within hc hr

end Diagonal

end LazyExpr
