/-
LazyExpr/Proofs/Separation.lean

What is out of reach of a table is not seen from there.

Two stores are compared from one table.  The second is a later state of the first, in
which another table has been rebound, and in which more may have been made.  What the
table reaches is the same in both, so an evaluation that starts there does the same in
both.  Only the numbers of what it makes differ, because each store goes on from its own
extent: `Likeness.fresh` matches them by the order in which they are given out, and with
this likeness the comparison is a simulation (`separation`).

Nothing that is reached may have a number beyond the extent, or it could be taken for
something new.  That is why the store has to have issued what it holds, as it has in every
session and in the middle of every evaluation (`Allocation`).
-/
import LazyExpr.Proofs.Allocation
import LazyExpr.Proofs.Locality

namespace LazyExpr

/-! ### Rebindings -/

/-- The store after any number of rebindings in one table.  What the values that are bound
there are made of may be made between them. -/
inductive Store.Rebound (g : ScopeId) (σ : Store) : Store → Prop
  | refl : σ.Rebound g σ
  | make {σ' σ'' : Store} : σ.Rebound g σ' → σ'.Extends σ'' → σ.Rebound g σ''
  | rebind {σ' σ'' : Store} {n : Name} {b : Binding} :
      σ.Rebound g σ' → σ'.assign? g n b = some σ'' → σ.Rebound g σ''

namespace Store

variable {σ σ' : Store} {g : ScopeId}

theorem assign?_eq_some_iff {n : Name} {b : Binding} :
    σ.assign? g n b = some σ' ↔ (σ.bindings g).isImmutable n = false ∧ σ.define g n b = σ' := by
  unfold assign? Bindings.assign?
  cases (σ.bindings g).isImmutable n <;> simp [define]

namespace Rebound

theorem extent (h : σ.Rebound g σ') : σ.extent.Grows σ'.extent := by
  induction h with
  | refl => exact .refl _
  | make _ hmake ih => exact ih.trans hmake.extent
  | rebind _ hassign ih =>
    obtain ⟨-, rfl⟩ := assign?_eq_some_iff.1 hassign
    rw [extent_define]
    exact ih

/-- No other table that was there is changed. -/
theorem bindings_eq (h : σ.Rebound g σ') {s : ScopeId} (hs : s.index < σ.scopes.size)
    (hne : s ≠ g) : σ'.bindings s = σ.bindings s := by
  induction h with
  | refl => rfl
  | make h hmake ih =>
    rw [hmake.bindings_eq s (Nat.lt_of_lt_of_le hs h.extent.scopes), ih]
  | rebind _ hassign ih =>
    obtain ⟨-, rfl⟩ := assign?_eq_some_iff.1 hassign
    rw [define, bindings_setBindings _ _ _ _ hne, ih]

theorem instance_eq (h : σ.Rebound g σ') {i : InstanceId} (hi : i.index < σ.instances.size) :
    σ'.instanceAt i = σ.instanceAt i := by
  induction h with
  | refl => rfl
  | make h hmake ih =>
    rw [hmake.instance_eq i (Nat.lt_of_lt_of_le hi h.extent.instances), ih]
  | rebind _ hassign ih =>
    obtain ⟨-, rfl⟩ := assign?_eq_some_iff.1 hassign
    exact ih

end Rebound

end Store

/-! ### References that have been issued -/

/-- The references into a store of some extent. -/
def Extent.Has (e : Extent) : Ref → Prop
  | .scope s => s.index < e.scopes
  | .data i => i.index < e.instances
  | _ => True

theorem Extent.has_of_inProgram {e : Extent} {r : Ref} (h : r.InProgram) : e.Has r := by
  cases r with
  | scope s => exact h.elim
  | data i => exact h.elim
  | _ => trivial

mutual

theorem Value.Issued.within {e : Extent} {v : Value} : v.Issued e → v.Within e.Has
  | .number _ => by rintro r ⟨⟩
  | .bool _ => by rintro r ⟨⟩
  | .char _ => by rintro r ⟨⟩
  | .void => by rintro r ⟨⟩
  | .data hi => by
    rintro r ⟨⟩
    exact hi
  | .function f => by
    rintro r ⟨⟩
    exact Extent.has_of_inProgram (Function.inProgram ‹_›)
  | .list _ hts => Likeness.within_list.2 fun t ht => Thunk.Issued.within (hts t ht)

theorem Thunk.Issued.within {e : Extent} {t : Thunk} : t.Issued e → t.Within e.Has
  | .forced hv => Likeness.within_forced.2 (Value.Issued.within hv)
  | .deferred hs => Likeness.within_deferred.2 ⟨trivial, hs⟩

end

/-- What a store holds leads to what it has issued, however far it is followed. -/
theorem Store.Issued.has_of_reaches {σ : Store} (h : σ.Issued) {r r' : Ref} (hr : σ.extent.Has r)
    (hreach : σ.Reaches r r') : σ.extent.Has r' := by
  rcases hreach.cases_tail with rfl | ⟨q, -, hp⟩
  · exact hr
  · cases hp with
    | bound hb hm => exact (h.bound hb).within _ hm
    | @field i f _ hf hm => exact (h.fields i f hf).within _ hm

/-! ### The likeness of what is made next -/

/-- Equally far beyond two numbers. -/
def Shifted (n n' i i' : Nat) : Prop := ∃ k, i = n + k ∧ i' = n' + k

theorem Shifted.succ {n n' i i' : Nat} : Shifted n n' i i' → Shifted n n' (i + 1) (i' + 1)
  | ⟨k, h, h'⟩ => ⟨k + 1, congrArg (· + 1) h, congrArg (· + 1) h'⟩

/-- A number that is kept, or numbers that are given out at the same time. -/
def Renumbered (P : Nat → Prop) (n n' i i' : Nat) : Prop := i = i' ∧ P i ∨ Shifted n n' i i'

namespace Renumbered

variable {P : Nat → Prop} {n n' i i' j j' : Nat}

theorem eq_iff (hP : ∀ i, P i → i < n) (hn : n ≤ n') (hi : Renumbered P n n' i i')
    (hj : Renumbered P n n' j j') : i = j ↔ i' = j' := by
  rcases hi with ⟨rfl, hi⟩ | ⟨k, rfl, rfl⟩
  · have hlt := hP i hi
    rcases hj with ⟨rfl, -⟩ | ⟨l, rfl, rfl⟩ <;> omega
  · rcases hj with ⟨rfl, hj⟩ | ⟨l, rfl, rfl⟩
    · have hlt := hP j hj
      omega
    · omega

theorem lt_iff (hP : ∀ i, P i → i < n) (hn : n ≤ n') (hi : Renumbered P n n' i i')
    (hj : Shifted n n' j j') : i < j ↔ i' < j' := by
  obtain ⟨l, rfl, rfl⟩ := hj
  rcases hi with ⟨rfl, hi⟩ | ⟨k, rfl, rfl⟩
  · have hlt := hP i hi
    omega
  · omega

end Renumbered

/-- What lies in a set of references is like itself; beyond two extents, tables, instances
and lists are alike when they are made at the same time. -/
def Likeness.fresh (D : Ref → Prop) (e e' : Extent) : Likeness where
  name := (· = ·)
  number := (· = ·)
  node := (· = ·)
  suspended := (· = ·)
  scope s s' := Renumbered (fun i => D (.scope ⟨i⟩)) e.scopes e'.scopes s.index s'.index
  data i i' := Renumbered (fun i => D (.data ⟨i⟩)) e.instances e'.instances i.index i'.index
  list i i' := Renumbered (· < e.lists) e.lists e'.lists i.index i'.index

/-- The set holds only what was there in the first extent, and the second is later. -/
structure Extent.Covers (e e' : Extent) (D : Ref → Prop) : Prop where
  has : ∀ {r}, D r → e.Has r
  grows : e.Grows e'

namespace Likeness

variable {D : Ref → Prop} {e e' : Extent}

theorem fresh_scope_iff (h : e.Covers e' D) {a a' b b' : ScopeId}
    (ha : (fresh D e e').scope a a') (hb : (fresh D e e').scope b b') : a = b ↔ a' = b' := by
  have hiff := Renumbered.eq_iff (P := fun i => D (.scope ⟨i⟩)) (fun _ hi => h.has hi)
    h.grows.scopes ha hb
  obtain ⟨i⟩ := a
  obtain ⟨j⟩ := b
  obtain ⟨i'⟩ := a'
  obtain ⟨j'⟩ := b'
  simpa using hiff

theorem fresh_data_iff (h : e.Covers e' D) {a a' b b' : InstanceId}
    (ha : (fresh D e e').data a a') (hb : (fresh D e e').data b b') : a = b ↔ a' = b' := by
  have hiff := Renumbered.eq_iff (P := fun i => D (.data ⟨i⟩)) (fun _ hi => h.has hi)
    h.grows.instances ha hb
  obtain ⟨i⟩ := a
  obtain ⟨j⟩ := b
  obtain ⟨i'⟩ := a'
  obtain ⟨j'⟩ := b'
  simpa using hiff

theorem fresh_list_iff (h : e.Covers e' D) {a a' b b' : ListId}
    (ha : (fresh D e e').list a a') (hb : (fresh D e e').list b b') : a = b ↔ a' = b' := by
  have hiff := Renumbered.eq_iff (fun _ hi => hi) h.grows.lists ha hb
  obtain ⟨i⟩ := a
  obtain ⟨j⟩ := b
  obtain ⟨i'⟩ := a'
  obtain ⟨j'⟩ := b'
  simpa using hiff

theorem self_fresh {r : Ref} (h : r.InProgram) : (fresh D e e').Self r := by
  cases r with
  | scope s => exact h.elim
  | data i => exact h.elim
  | _ => rfl

mutual

theorem onValue_fresh {v : Value} : v.Issued e → v.Within D → (fresh D e e').OnValue v v
  | .number n, _ => .number n
  | .bool b, _ => .bool b
  | .char c, _ => .char c
  | .void, _ => .void
  | .data _, h => .data (.inl ⟨rfl, h _ (.data _)⟩)
  | .function _, _ => .function (onFunction_self fun _ hr => self_fresh (Function.inProgram hr))
  | .list hi hts, h => .list (.inl ⟨rfl, hi⟩) (onThunks_iff.2 (List.forall₂_same.2 fun t ht =>
      onThunk_fresh (hts t ht) (within_list.1 h t ht)))

theorem onThunk_fresh {t : Thunk} : t.Issued e → t.Within D → (fresh D e e').OnThunk t t
  | .forced hv, h => .forced (onValue_fresh hv (within_forced.1 h))
  | .deferred _, h => .deferred rfl (.inl ⟨rfl, (within_deferred.1 h).2⟩)

end

end Likeness

/-! ### Stores that match -/

/-- As much has been made in two stores since they had the extents, and what stands for
each other in them is alike. -/
structure Store.Matches (D : Ref → Prop) (e e' : Extent) (σ σ' : Store) : Prop where
  scopes : Shifted e.scopes e'.scopes σ.scopes.size σ'.scopes.size
  instances : Shifted e.instances e'.instances σ.instances.size σ'.instances.size
  lists : Shifted e.lists e'.lists σ.lists σ'.lists
  bound : ∀ {s s'}, (Likeness.fresh D e e').scope s s' → ∀ n,
    Option.Rel (Likeness.fresh D e e').OnBinding ((σ.bindings s).find? n) ((σ'.bindings s').find? n)
  fields : ∀ {i i'}, (Likeness.fresh D e e').data i i' →
    (Likeness.fresh D e e').OnInstance (σ.instanceAt i) (σ'.instanceAt i')

namespace Store.Matches

variable {D : Ref → Prop} {e e' : Extent} {σ σ' : Store}

theorem define (h : σ.Matches D e e' σ') (hD : e.Covers e' D) {s s' : ScopeId}
    (hs : (Likeness.fresh D e e').scope s s') {b b' : Binding}
    (hb : (Likeness.fresh D e e').OnBinding b b') (n : Name) :
    (σ.define s n b).Matches D e e' (σ'.define s' n b') where
  scopes := by simpa using h.scopes
  instances := h.instances
  lists := h.lists
  bound := by
    intro t t' ht k
    have hlt := Renumbered.lt_iff (P := fun i => D (.scope ⟨i⟩)) (fun _ hi => hD.has hi)
      hD.grows.scopes hs h.scopes
    rw [find?_define, find?_define]
    simp only [Likeness.fresh_scope_iff hD ht hs, hlt]
    split
    · exact .some hb
    · exact h.bound ht k
  fields := h.fields

theorem copyScope (h : σ.Matches D e e' σ') (hD : e.Covers e' D) {s s' : ScopeId}
    (hs : (Likeness.fresh D e e').scope s s') :
    (σ.copyScope s).2.Matches D e e' (σ'.copyScope s').2 where
  scopes := by simpa using h.scopes.succ
  instances := h.instances
  lists := h.lists
  bound := by
    intro t t' ht k
    have hnew : (Likeness.fresh D e e').scope (σ.copyScope s).1 (σ'.copyScope s').1 := .inr h.scopes
    rw [bindings_copyScope, bindings_copyScope]
    simp only [Likeness.fresh_scope_iff hD ht hnew]
    split
    · exact h.bound hs k
    · exact h.bound ht k
  fields := h.fields

theorem addList (h : σ.Matches D e e' σ') (ts us : List Thunk) :
    (σ.addList ts).2.Matches D e e' (σ'.addList us).2 :=
  { h with lists := h.lists.succ }

theorem setField (h : σ.Matches D e e' σ') (hD : e.Covers e' D) {i i' : InstanceId}
    (hi : (Likeness.fresh D e e').data i i') {t t' : Thunk}
    (ht : (Likeness.fresh D e e').OnThunk t t') (n : Name) :
    (σ.setField i n t).Matches D e e' (σ'.setField i' n t') where
  scopes := h.scopes
  instances := by simpa using h.instances
  lists := h.lists
  bound := h.bound
  fields := by
    intro j j' hj
    rw [instanceAt_setField, instanceAt_setField]
    simp only [Likeness.fresh_data_iff hD hj hi]
    split
    · exact (h.fields hi).setField (fun hn => congrArg (· == n) hn) rfl ht
    · exact h.fields hj

theorem addInstance (h : σ.Matches D e e' σ') (hD : e.Covers e' D) {d d' : Instance}
    (hd : (Likeness.fresh D e e').OnInstance d d') :
    (σ.addInstance d).2.Matches D e e' (σ'.addInstance d').2 where
  scopes := h.scopes
  instances := by simpa using h.instances.succ
  lists := h.lists
  bound := h.bound
  fields := by
    intro j j' hj
    have hnew : (Likeness.fresh D e e').data (σ.addInstance d).1 (σ'.addInstance d').1 :=
      .inr h.instances
    rw [instanceAt_addInstance, instanceAt_addInstance]
    simp only [Likeness.fresh_data_iff hD hj hnew]
    split
    · exact hd
    · exact h.fields hj

/-- A store matches a later one in which a table was rebound, as far as one can see without
reaching that table. -/
theorem of_rebound (hσ : σ.Issued) {c g : ScopeId} (hc : c.index < σ.scopes.size)
    (h : σ.Rebound g σ') (hg : ¬ σ.Reaches (.scope c) (.scope g)) :
    σ.Matches (σ.Reaches (.scope c)) σ.extent σ'.extent σ' where
  scopes := ⟨0, rfl, rfl⟩
  instances := ⟨0, rfl, rfl⟩
  lists := ⟨0, rfl, rfl⟩
  bound := by
    rintro s s' (⟨hs, hreach⟩ | ⟨k, hs, hs'⟩) n
    · obtain rfl : s = s' := congrArg ScopeId.mk hs
      have hlt : s.index < σ.scopes.size := hσ.has_of_reaches (r := .scope c) hc hreach
      have hne : s ≠ g := fun e => hg (e ▸ hreach)
      rw [h.bindings_eq hlt hne]
      rcases hb : (σ.bindings s).find? n with - | b
      · exact .none
      · refine .some ⟨Likeness.onValue_fresh (hσ.bound hb) fun r hr => ?_, rfl⟩
        exact Relation.ReflTransGen.tail hreach (.bound hb hr)
    · -- tables that are not there yet are empty on both sides
      have hle : σ.scopes.size ≤ s.index := hs ▸ Nat.le_add_right _ _
      have hle' : σ'.scopes.size ≤ s'.index := hs' ▸ Nat.le_add_right _ _
      rw [bindings_of_size_le _ _ hle, bindings_of_size_le _ _ hle']
      exact .none
  fields := by
    rintro i i' (⟨hi, hreach⟩ | ⟨k, hi, hi'⟩)
    · obtain rfl : i = i' := congrArg InstanceId.mk hi
      have hlt : i.index < σ.instances.size := hσ.has_of_reaches (r := .scope c) hc hreach
      rw [h.instance_eq hlt]
      refine ⟨rfl, rfl, List.forall₂_same.2 fun f hf => ⟨rfl, ?_⟩⟩
      refine Likeness.onThunk_fresh (hσ.fields i f hf) fun r hr => ?_
      exact Relation.ReflTransGen.tail hreach (.field hf hr)
    · have hle : σ.instances.size ≤ i.index := hi ▸ Nat.le_add_right _ _
      have hle' : σ'.instances.size ≤ i'.index := hi' ▸ Nat.le_add_right _ _
      rw [instanceAt, instanceAt, Array.getElem?_eq_none hle, Array.getElem?_eq_none hle']
      exact ⟨rfl, rfl, .nil⟩

end Store.Matches

/-! ### The simulation -/

section

variable {D : Ref → Prop} {e e' : Extent}

theorem Likeness.eq_of_onDataType_fresh {t t' : DataType}
    (h : (Likeness.fresh D e e').OnDataType t t') : t = t' := by
  have hvariant : ∀ v v', (Likeness.fresh D e e').OnVariant v v' → v = v' := by
    rintro ⟨n, fs⟩ ⟨n', fs'⟩ hv
    obtain rfl : n = n' := hv.name
    obtain rfl : fs = fs' := List.forall₂_eq_eq_eq ▸ hv.fields
    rfl
  obtain ⟨n, vs⟩ := t
  obtain ⟨n', vs'⟩ := t'
  obtain rfl : n = n' := h.name
  obtain rfl : vs = vs' := List.forall₂_eq_eq_eq ▸ h.variants.imp hvariant
  rfl

/-- Evaluations from stores that match end alike, under the same calls and with the same
output. -/
def separation (p : Program) (hD : e.Covers e' D) : Simulation p p where
  toLikeness := .fresh D e e'
  own s s' := Shifted e.scopes e'.scopes s.index s'.index
  state σ τ σ' τ' := σ.Matches D e e' σ' ∧ τ' = τ
  calls := (· = ·)
  sink := (· = ·)
  stop _ _ a b := a = b
  excused _ := False
  text_eq := by
    rintro n _ rfl
    rfl
  empty_iff := by
    rintro n _ rfl
    rfl
  name_iff := by
    rintro a _ b _ rfl rfl
    rfl
  node_iff := by
    rintro a _ b _ rfl rfl
    rfl
  data_iff := Likeness.fresh_data_iff hD
  list_iff := Likeness.fresh_list_iff hD
  own_scope := .inr
  find := by
    rintro σ τ σ' τ' s s' n _ hσ hs rfl
    exact hσ.1.bound hs n
  assign := by
    rintro σ τ σ' τ' s s' n _ b b' hσ hs rfl hb -
    exact ⟨hσ.1.define hD hs hb n, hσ.2⟩
  define := by
    rintro σ τ σ' τ' s s' n _ v v' hσ hs rfl hv
    have hb : (Likeness.fresh D e e').OnBinding ⟨v, .mutable⟩ ⟨v', .mutable⟩ := ⟨hv, rfl⟩
    exact ⟨hσ.1.define hD (.inr hs) hb n, hσ.2⟩
  copy hσ hs := ⟨hσ.1.scopes, hσ.1.copyScope hD hs, hσ.2⟩
  add_list ts us hσ := ⟨.inr hσ.1.lists, hσ.1.addList ts us, hσ.2⟩
  instance_at hσ hi := hσ.1.fields hi
  set_field := by
    rintro σ τ σ' τ' i i' n _ v v' hσ hi rfl hv
    exact ⟨hσ.1.setField hD hi (.forced hv) n, hσ.2⟩
  add_instance hσ hd _ _ := ⟨.inr hσ.1.instances, hσ.1.addInstance hD hd, hσ.2⟩
  variant := by
    rintro σ _ σ' τ t _ v _ ⟨-, rfl⟩ rfl rfl
    rcases τ.variant p.names t v with c | w
    · exact .error c
    · exact .ok (Likeness.onVariant_self fun r hr => Likeness.self_fresh (Variant.inProgram hr))
  declare := by
    rintro σ _ σ' τ t t' ⟨hσ, rfl⟩ ht
    obtain rfl := Likeness.eq_of_onDataType_fresh ht
    rcases τ.declare p.names t with c | τ'
    · exact .error c
    · exact .ok ⟨hσ, rfl⟩
  write := @Sink.write_eq_of_eq
  enter := by
    rintro cs _ n _ d sp rfl rfl hd
    refine ⟨d, hd, rfl, ?_⟩
    rintro a _ rfl
    rfl
  refuse := by
    rintro cs _ n _ c sp rfl rfl hd
    exact .inr ⟨c, hd, rfl⟩
  raise _ _ := rfl
  reach _ := rfl
  capacity _ := rfl
  place := @Stop.placedAt_eq_of_eq
  excused_mapFault _ _ h := h

theorem separation_programs {p : Program} (hD : e.Covers e' D) : (separation p hD).Programs where
  node := by
    rintro n _ rfl
    rcases p.node? n with - | a
    · exact .none fun _ => rfl
    · refine .some ⟨Likeness.onKind_self (fun _ _ => rfl) fun r hr => ?_, rfl⟩
      exact Likeness.self_fresh (Kind.inProgram hr)
  number := by
    rintro a _ rfl
    rcases p.number? a with - | d
    · exact .none fun _ => rfl
    · exact .some rfl
  suspended h := h
  fuel _ := rfl

end

/-! ### Forcing what a call left behind -/

/-- Machines that differ in their stores alone, which match. -/
structure Machine.Matches (D : Ref → Prop) (e e' : Extent) (m m' : Machine) : Prop where
  store : m.store.Matches D e e' m'.store
  types : m'.types = m.types
  sink : m'.sink = m.sink
  control : m'.control = m.control

/-- Two evaluations end with values that are alike, or with the same stop, in machines
that match. -/
inductive Eval.Matches (D : Ref → Prop) (e e' : Extent) :
    EStateM.Result Stop Machine Value → EStateM.Result Stop Machine Value → Prop
  | ok {v v' : Value} {m m' : Machine} : (Likeness.fresh D e e').OnValue v v' →
      m.Matches D e e' m' → Eval.Matches D e e' (.ok v m) (.ok v' m')
  | error (stop : Stop) {m m' : Machine} : m.Matches D e e' m' →
      Eval.Matches D e e' (.error stop m) (.error stop m')

section

variable {p : Program} {fuel reach rest : Nat} {m : Machine}

theorem force_matches (hm : m.Issued) {c g : ScopeId} (hc : c.index < m.store.scopes.size)
    {σ : Store} (hσ : m.store.Rebound g σ) (hg : ¬ m.store.Reaches (.scope c) (.scope g))
    (n : NodeId) :
    Eval.Matches (m.store.Reaches (.scope c)) m.store.extent σ.extent
      ((p.context fuel reach rest).force (.deferred n c) m)
      ((p.context fuel reach rest).force (.deferred n c) { m with store := σ }) := by
  have hD : m.store.extent.Covers σ.extent (m.store.Reaches (.scope c)) :=
    ⟨fun hr => hm.store.has_of_reaches (r := .scope c) hc hr, hσ.extent⟩
  -- the thunk has its own table, so it does not matter which one is the current
  have hself : (separation p hD).scope c c := .inl ⟨rfl, .refl⟩
  have hcontext : (separation p hD).Contexts ⟨c, m.calls⟩ ⟨c, m.calls⟩ (separation p hD).node
      (p.context fuel reach rest) (p.context fuel reach rest) :=
    Simulation.context_agree (separation_programs hD) (.inl rfl) (.inl rfl) (.inl rfl) hself rfl
  have hforce : (separation p hD).Agree m.control m.control _
      ((p.context fuel reach rest).force (.deferred n c))
      ((p.context fuel reach rest).force (.deferred n c)) :=
    Simulation.force_agree hcontext rfl (.deferred rfl hself)
  have hstart : (separation p hD).Holds m.control m.control m { m with store := σ } :=
    ⟨rfl, rfl, rfl, rfl, .of_rebound hm.store hc hσ hg, rfl⟩
  have hmatch : ∀ {l l' : Machine}, (separation p hD).Holds m.control m.control l l' →
      l.Matches (m.store.Reaches (.scope c)) m.store.extent σ.extent l' :=
    fun hl => ⟨hl.state.1, hl.state.2, hl.sink.symm, hl.right.trans hl.left.symm⟩
  have hends := hforce _ _ hstart
  generalize (p.context fuel reach rest).force (.deferred n c) m = r,
    (p.context fuel reach rest).force (.deferred n c) { m with store := σ } = r' at hends
  cases hends with
  | ok hv hl => exact .ok hv (hmatch hl)
  | error he hl =>
    obtain rfl := he
    exact .error _ (hmatch hl)
  | excused he _ => exact he.elim

/-- What a call leaves behind, however it ends. -/
theorem issued_of_enters (hm : m.Issued) {id : NodeId} {args : List NodeId} {f : Function}
    {caller inside : Machine} {c : ScopeId}
    (h : (p.context fuel reach rest).Enters id args m f caller c inside) (span : Span) :
    (((p.context fuel reach rest).call span id args).after m).Issued ∧
      (((p.context fuel reach rest).call span id args).after m).scope = caller.scope ∧
      c.index < (((p.context fuel reach rest).call span id args).after m).store.scopes.size := by
  have hc := Ledger.contexts p fuel reach rest
  obtain ⟨a, -, hcallee⟩ := h.called
  obtain ⟨m₁, hscope, hargs⟩ := h.bound
  -- the table is made in `m₁`, and nothing is lost from there on
  obtain ⟨_, hcaller, -⟩ := (Ledger.callee_agree hc id a.kind).of_ok hm.recorded hcallee
  obtain ⟨_, hm₁, _, -, hlt⟩ := (Ledger.callScope_agree f).of_ok hcaller.recorded hscope
  obtain ⟨_, hinside, -⟩ := (Ledger.bindArguments_agree hc hlt _).of_ok hm₁.recorded hargs
  have hbody := (Ledger.body_agree hc f
    (Nat.lt_of_lt_of_le hlt hinside.grows.extent.scopes)).inFrame p.names ⟨f.name, some span⟩
  obtain ⟨l, hafter⟩ := hbody.after hinside.recorded
  rw [Eval.after, Context.call_of_enters h span]
  have hkeep : _ = caller.control :=
    hafter.control.trans (hinside.control.trans hm₁.control)
  have hextent : l.extent = _ := hafter.recorded.store.extent
  refine ⟨hafter.recorded.issued, congrArg Control.scope hkeep, ?_⟩
  exact Nat.lt_of_lt_of_le hlt
    (hextent ▸ (hinside.grows.trans hafter.grows).extent : Extent.Grows _ _).scopes

/-- An assignment is a rebinding in the current table, if its value is made without changing
anything. -/
theorem rebound_of_assign (hm : m.Issued) {value : NodeId}
    (hvalue : m.store.Extends (((p.context fuel reach rest).eval value).after m).store)
    {σ : Store} (hσ : σ.Rebound m.scope m.store) (name : Name) (mutability : Mutability) :
    σ.Rebound m.scope
      (((p.context fuel reach rest).assign name value mutability).after m).store := by
  obtain ⟨_, hafter⟩ := ((Ledger.contexts p fuel reach rest).eval value).after hm.recorded
  have hmade := hσ.make hvalue
  unfold Eval.after at hafter hmade
  unfold Context.assign Eval.after
  simp only [bind, EStateM.bind]
  rcases hv : (p.context fuel reach rest).eval value m with ⟨v, m₁⟩ | ⟨e, m₁⟩
  · rw [hv] at hafter hmade
    have hscope : m₁.scope = m.scope := congrArg Control.scope hafter.control
    dsimp only
    rw [Eval.assign_apply, hscope]
    cases himm : (m₁.store.bindings m.scope).isImmutable name with
    | true => exact hmade
    | false => exact hmade.rebind (Store.assign?_eq_some_iff.2 ⟨himm, rfl⟩)
  · rw [hv] at hmade
    exact hmade

end

/-- What a call left behind does not see what its caller binds later, unless it reaches the
caller's table.

Sessions have issued what they refer to, whatever their hosts asked for, and so have the
machines in the middle of an evaluation: a supervisor that leaves those alone is not noticed.
From such a machine, a call leaves one behind that is back in the caller's table and has
the table of the call in its store; assignments in a table are rebindings of it; and a thunk
over one table is forced alike before and after rebindings of another which the first does
not reach, to values that are alike up to the numbers of what is new or with the same stop,
and with the same output. -/
theorem later_rebindings_unseen (p : Program) (fuel reach rest : Nat) :
    (∀ (limit : Nat) (requests : List Request) (sink : Sink),
      let h := ((Host.start (.withPrelude limit)).answerAll requests).2
      (h.session.machine sink).Issued ∧ ∀ v ∈ h.values, v.Issued h.session.store.extent) ∧
    ∀ m : Machine, m.Issued →
      (∀ v : Supervisor, v.SparesIssued → ∀ id,
        (v.context p fuel reach rest).eval id m = (p.context fuel reach rest).eval id m) ∧
      (∀ (id : NodeId) (args : List NodeId) (f : Function) (caller : Machine) (c : ScopeId)
        (inside : Machine), (p.context fuel reach rest).Enters id args m f caller c inside →
        ∀ span, let after := ((p.context fuel reach rest).call span id args).after m
          after.Issued ∧ after.scope = caller.scope ∧ c.index < after.store.scopes.size) ∧
      (∀ (σ : Store) (name : Name) (value : NodeId) (mutability : Mutability),
        m.store.Extends (((p.context fuel reach rest).eval value).after m).store →
        σ.Rebound m.scope m.store → σ.Rebound m.scope
          (((p.context fuel reach rest).assign name value mutability).after m).store) ∧
      ∀ (c g : ScopeId) (σ : Store) (n : NodeId), c.index < m.store.scopes.size →
        ¬ m.store.Reaches (.scope c) (.scope g) → m.store.Rebound g σ →
        Eval.Matches (m.store.Reaches (.scope c)) m.store.extent σ.extent
          ((p.context fuel reach rest).force (.deferred n c) m)
          ((p.context fuel reach rest).force (.deferred n c) { m with store := σ }) := by
  refine ⟨fun limit requests sink => ?_, fun m hm => ⟨?_, ?_, ?_, ?_⟩⟩
  · have hi := (Host.issued_start (Session.issued_withPrelude limit)).answerAll requests
    exact ⟨hi.session.machine sink, hi.values⟩
  · intro v hv id
    exact ((Extent.supervised_contexts hv p fuel reach rest).eval id m hm (.refl _)).1
  · intro id args f caller c inside henter span
    exact issued_of_enters hm henter span
  · intro σ name value mutability hvalue hσ
    exact rebound_of_assign hm hvalue hσ name mutability
  · intro c g σ n hc hg hσ
    exact force_matches hm hc hσ hg n

/-- A call of `mk`, which is `Box$B{v: [y]}`: the list in the field is suspended over the
table of the call.  After `y = []` in the caller's table it is forced to another list, but
with the same `y` in it. -/
theorem later_rebindings_unseen_of_field :
    let p : Program := ⟨#[⟨.ident ⟨1⟩, .unlocated⟩, ⟨.list [⟨0⟩], .unlocated⟩,
      ⟨.construct ⟨3⟩ ⟨4⟩ [(⟨5⟩, ⟨1⟩)], .unlocated⟩, ⟨.ident ⟨2⟩, .unlocated⟩], #[], .initial⟩
    let c := p.context 3 2 3
    let mk : Function := ⟨⟨2⟩, [], ⟨2⟩⟩
    let m₀ : Machine :=
      ⟨⟨#[⟨[(⟨1⟩, ⟨.bool true, .mutable⟩), (⟨2⟩, ⟨.function mk, .mutable⟩)]⟩], #[], 0⟩,
        ⟨[⟨⟨3⟩, [⟨⟨4⟩, [⟨5⟩]⟩]⟩]⟩, .emptyBuffer, ⟨0⟩, .empty 1⟩
    let m := (c.call .unlocated ⟨3⟩ []).after m₀
    let σ := (m.store.addList []).2.define ⟨0⟩ ⟨1⟩ ⟨.list ⟨0⟩ [], .mutable⟩
    (m.store.instanceAt ⟨0⟩).fields = [(⟨5⟩, .deferred ⟨1⟩ ⟨1⟩)] ∧
    m.Issued ∧ m.scope = ⟨0⟩ ∧ ¬ m.store.Reaches (.scope ⟨1⟩) (.scope ⟨0⟩) ∧
    m.store.Rebound ⟨0⟩ σ ∧
    (∃ n, c.force (.deferred ⟨1⟩ ⟨1⟩) m = .ok (.list ⟨0⟩ [.deferred ⟨0⟩ ⟨1⟩]) n) ∧
    (∃ n, c.force (.deferred ⟨1⟩ ⟨1⟩) { m with store := σ } =
      .ok (.list ⟨1⟩ [.deferred ⟨0⟩ ⟨1⟩]) n) ∧
    Eval.Matches (m.store.Reaches (.scope ⟨1⟩)) m.store.extent σ.extent
      (c.force (.deferred ⟨1⟩ ⟨1⟩) m) (c.force (.deferred ⟨1⟩ ⟨1⟩) { m with store := σ }) := by
  intro p c mk m₀ m σ
  have hstart : m₀.Issued := by
    refine ⟨by decide, ⟨?_, fun i f hf => nomatch hf⟩⟩
    intro s n b hb
    obtain ⟨_ | i⟩ := s
    · have hmem : (n, b) ∈ [_, _] := Bindings.mem_of_find? hb
      simp only [List.mem_cons, Prod.mk.injEq, List.not_mem_nil, or_false] at hmem
      rcases hmem with ⟨-, rfl⟩ | ⟨-, rfl⟩
      · exact .bool true
      · exact .function mk
    · cases hb
  have henter : c.Enters ⟨3⟩ [] m₀ mk m₀ ⟨1⟩ _ := ⟨⟨_, rfl, rfl⟩, rfl, _, rfl, rfl⟩
  obtain ⟨-, hall⟩ := later_rebindings_unseen p 3 2 3
  obtain ⟨hm, hscope, hc⟩ := (hall _ hstart).2.1 _ _ _ _ _ _ henter .unlocated
  -- of all that is in the store, only the field points to a table, and that is the call's
  have hreach : ¬ m.store.Reaches (.scope ⟨1⟩) (.scope ⟨0⟩) := by
    intro hr
    rcases hr.cases_tail with e | ⟨q, -, hp⟩
    · cases e
    · cases hp with
      | @bound s n b _ hb hr =>
        have hmem : (n, b) ∈ [(⟨1⟩, ⟨.bool true, .mutable⟩), (⟨2⟩, ⟨.function mk, .mutable⟩)] := by
          obtain ⟨_ | _ | i⟩ := s
          · exact Bindings.mem_of_find? hb
          · exact Bindings.mem_of_find? hb
          · cases hb
        simp only [List.mem_cons, Prod.mk.injEq, List.not_mem_nil, or_false] at hmem
        rcases hmem with ⟨-, rfl⟩ | ⟨-, rfl⟩
        · cases hr
        · cases hr with
          | function h => exact Function.inProgram h
      | @field i f _ hf hr =>
        obtain ⟨_ | i⟩ := i
        · have hmem : f ∈ [_] := hf
          obtain rfl := List.mem_singleton.1 hmem
          cases hr
        · cases hf
  have hmade : m.store.Extends (m.store.addList []).2 :=
    ⟨Store.extent_addList _, fun _ _ => rfl, fun _ _ => rfl⟩
  have hassign : (m.store.addList []).2.assign? ⟨0⟩ ⟨1⟩ ⟨.list ⟨0⟩ [], .mutable⟩ = some σ := rfl
  have hσ : m.store.Rebound ⟨0⟩ σ := (Store.Rebound.refl.make hmade).rebind hassign
  exact ⟨rfl, hm, hscope, hreach, hσ, ⟨_, rfl⟩, ⟨_, rfl⟩,
    (hall m hm).2.2.2 ⟨1⟩ ⟨0⟩ σ ⟨1⟩ hc hreach hσ⟩

end LazyExpr
