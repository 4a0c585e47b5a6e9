/-
LazyExpr/Proofs/Ledger.lean

The elements of lists are on record.

A list carries its elements itself, and a number that stands for its identity.  A ledger is
an extent together with the elements that the lists within it have.  Where every list has one
entry (`Ledger.Exact`), two lists with the same number are the same list.

`Ledger.Agree` is the judgement of `Extent`, for machines that refer to nothing but what is
on record: a step may add entries for the lists that it makes, and what it says of the result
is said with the ledger that is there in the end.  Entries for lists that were made before
are not added, so a ledger that is exact stays so (`Ledger.Exact.grows`).  Ledgers are the
worlds of the judgement (`Ledger.judgement`).  An extent alone is a ledger that has all
entries (`Extent.ledger`), which is how what holds for ledgers holds for extents.
-/
import LazyExpr.Proofs.Diagonal
import LazyExpr.Proofs.Extent

namespace LazyExpr

/-! ### What is on record -/

/-- How much has been made, and the elements of the lists among it. -/
structure Ledger where
  extent : Extent
  entry : ListId → List Thunk → Prop
  made : ∀ {i ts}, entry i ts → i.index < extent.lists

/-- More has been made, and each new list has one entry. -/
structure Ledger.Grows (l l' : Ledger) : Prop where
  extent : l.extent.Grows l'.extent
  entry : ∀ {i ts}, l.entry i ts → l'.entry i ts
  old : ∀ {i ts}, l'.entry i ts → i.index < l.extent.lists → l.entry i ts
  new : ∀ {i ts us}, l.extent.lists ≤ i.index → l'.entry i ts → l'.entry i us → ts = us

/-- Every list has one entry. -/
def Ledger.Exact (l : Ledger) : Prop := ∀ i ts us, l.entry i ts → l.entry i us → ts = us

namespace Ledger

theorem Grows.of_extent {l : Ledger} {e : Extent} (h : l.extent.Grows e) :
    l.Grows ⟨e, l.entry, fun hi => Nat.lt_of_lt_of_le (l.made hi) h.lists⟩ where
  extent := h
  entry hi := hi
  old hi _ := hi
  new hle hi _ := absurd (l.made hi) (Nat.not_lt.2 hle)

theorem Grows.refl (l : Ledger) : l.Grows l := .of_extent (.refl l.extent)

theorem Grows.trans {a b c : Ledger} (h : a.Grows b) (h' : b.Grows c) : a.Grows c where
  extent := h.extent.trans h'.extent
  entry hi := h'.entry (h.entry hi)
  old hi hlt := h.old (h'.old hi (Nat.lt_of_lt_of_le hlt h.extent.lists)) hlt
  new {i ts us} hle hi hi' := by
    by_cases hlt : i.index < b.extent.lists
    · exact h.new hle (h'.old hi hlt) (h'.old hi' hlt)
    · exact h'.new (Nat.not_lt.1 hlt) hi hi'

theorem Exact.grows {l l' : Ledger} (h : l.Exact) (hg : l.Grows l') : l'.Exact := by
  intro i ts us hi hi'
  by_cases hlt : i.index < l.extent.lists
  · exact h i ts us (hg.old hi hlt) (hg.old hi' hlt)
  · exact hg.new (Nat.not_lt.1 hlt) hi hi'

/-- The ledger with an entry for the next list. -/
def enter (l : Ledger) (ts : List Thunk) : Ledger where
  extent := { l.extent with lists := l.extent.lists + 1 }
  entry i us := l.entry i us ∨ i.index = l.extent.lists ∧ us = ts
  made := by
    rintro i us (hi | ⟨hi, -⟩)
    · exact Nat.lt_succ_of_lt (l.made hi)
    · exact hi ▸ Nat.lt_succ_self _

theorem grows_enter (l : Ledger) (ts : List Thunk) : l.Grows (l.enter ts) where
  extent := ⟨Nat.le_refl _, Nat.le_refl _, Nat.le_succ _⟩
  entry hi := .inl hi
  old := by
    rintro i us (hi | ⟨hi, -⟩) hlt
    · exact hi
    · omega
  new := by
    rintro i us us' hle (hi | ⟨-, rfl⟩) hi'
    · exact absurd (l.made hi) (Nat.not_lt.2 hle)
    · rcases hi' with hi' | ⟨-, rfl⟩
      · exact absurd (l.made hi') (Nat.not_lt.2 hle)
      · rfl

end Ledger

/-- Any elements are on record for the lists of an extent. -/
def Extent.ledger (e : Extent) : Ledger := ⟨e, fun i _ => i.index < e.lists, fun hi => hi⟩

theorem Extent.exact_ledger {e : Extent} (h : e.lists = 0) : e.ledger.Exact := by
  intro i ts us hi _
  have hlt : i.index < e.lists := hi
  omega

mutual

/-- A value refers to tables and instances that have been made, and its lists are on record
with the elements that they have. -/
inductive Value.Recorded (l : Ledger) : Value → Prop
  | number (n : Decimal) : Value.Recorded l (.number n)
  | bool (b : Bool) : Value.Recorded l (.bool b)
  | char (c : Char) : Value.Recorded l (.char c)
  | list {i : ListId} {ts : List Thunk} : l.entry i ts → (∀ t ∈ ts, Thunk.Recorded l t) →
      Value.Recorded l (.list i ts)
  | function (f : Function) : Value.Recorded l (.function f)
  | data {i : InstanceId} : i.index < l.extent.instances → Value.Recorded l (.data i)
  | void : Value.Recorded l .void

inductive Thunk.Recorded (l : Ledger) : Thunk → Prop
  | forced {v : Value} : Value.Recorded l v → Thunk.Recorded l (.forced v)
  | deferred {n : NodeId} {s : ScopeId} : s.index < l.extent.scopes →
      Thunk.Recorded l (.deferred n s)

end

variable {l l' : Ledger}

theorem Value.recorded_list_iff {i : ListId} {ts : List Thunk} :
    (Value.list i ts).Recorded l ↔ l.entry i ts ∧ ∀ t ∈ ts, t.Recorded l :=
  ⟨fun h => by cases h with | list hi hts => exact ⟨hi, hts⟩, fun h => .list h.1 h.2⟩

theorem Thunk.recorded_forced_iff {v : Value} : (Thunk.forced v).Recorded l ↔ v.Recorded l :=
  ⟨fun h => by cases h with | forced hv => exact hv, .forced⟩

mutual

theorem Value.Recorded.mono (h : l.Grows l') {v : Value} : v.Recorded l → v.Recorded l'
  | .number n => .number n
  | .bool b => .bool b
  | .char c => .char c
  | .list hi hts => .list (h.entry hi) fun t ht => Thunk.Recorded.mono h (hts t ht)
  | .function f => .function f
  | .data hi => .data (Nat.lt_of_lt_of_le hi h.extent.instances)
  | .void => .void

theorem Thunk.Recorded.mono (h : l.Grows l') {t : Thunk} : t.Recorded l → t.Recorded l'
  | .forced hv => .forced (Value.Recorded.mono h hv)
  | .deferred hs => .deferred (Nat.lt_of_lt_of_le hs h.extent.scopes)

end

mutual

theorem Value.Recorded.issued {v : Value} : v.Recorded l → v.Issued l.extent
  | .number n => .number n
  | .bool b => .bool b
  | .char c => .char c
  | .list hi hts => .list (l.made hi) fun t ht => Thunk.Recorded.issued (hts t ht)
  | .function f => .function f
  | .data hi => .data hi
  | .void => .void

theorem Thunk.Recorded.issued {t : Thunk} : t.Recorded l → t.Issued l.extent
  | .forced hv => .forced (Value.Recorded.issued hv)
  | .deferred hs => .deferred hs

end

mutual

theorem Value.Issued.recorded {e : Extent} {v : Value} : v.Issued e → v.Recorded e.ledger
  | .number n => .number n
  | .bool b => .bool b
  | .char c => .char c
  | .list hi hts => .list hi fun t ht => Thunk.Issued.recorded (hts t ht)
  | .function f => .function f
  | .data hi => .data hi
  | .void => .void

theorem Thunk.Issued.recorded {e : Extent} {t : Thunk} : t.Issued e → t.Recorded e.ledger
  | .forced hv => .forced (Value.Issued.recorded hv)
  | .deferred hs => .deferred hs

end

def Instance.Recorded (l : Ledger) (d : Instance) : Prop := ∀ f ∈ d.fields, f.2.Recorded l

theorem Instance.Recorded.mono (h : l.Grows l') {d : Instance} (hd : d.Recorded l) :
    d.Recorded l' :=
  fun f hf => (hd f hf).mono h

/-- Everything in a store is on record, in a ledger of its extent. -/
structure Store.Recorded (l : Ledger) (σ : Store) : Prop where
  extent : l.extent = σ.extent
  bound : ∀ {s n b}, (σ.bindings s).find? n = some b → b.value.Recorded l
  fields : ∀ i, (σ.instanceAt i).Recorded l

namespace Store

variable {σ : Store}

theorem Recorded.issued (h : σ.Recorded l) : σ.Issued where
  bound hb := h.extent ▸ (h.bound hb).issued
  fields i f hf := h.extent ▸ (h.fields i f hf).issued

theorem Recorded.lt_of_data (h : σ.Recorded l) {i : InstanceId} (hi : (Value.data i).Recorded l) :
    i.index < σ.instances.size := by
  cases hi with
  | data hlt => exact Nat.lt_of_lt_of_eq hlt (congrArg Extent.instances h.extent)

theorem Issued.recorded (h : σ.Issued) : σ.Recorded σ.extent.ledger where
  extent := rfl
  bound hb := (h.bound hb).recorded
  fields i f hf := (h.fields i f hf).recorded

namespace Recorded

theorem define (h : σ.Recorded l) {b : Binding} (hb : b.value.Recorded l) (s : ScopeId) (n : Name) :
    (σ.define s n b).Recorded l where
  extent := h.extent.trans (extent_define s n b).symm
  bound := forall_define h.bound hb
  fields := h.fields

theorem setField (h : σ.Recorded l) {t : Thunk} (ht : t.Recorded l) (i : InstanceId) (n : Name) :
    (σ.setField i n t).Recorded l where
  extent := h.extent.trans (extent_setField i n t).symm
  bound := h.bound
  fields j := by
    rw [instanceAt_setField]
    split
    · intro f hf
      rcases Instance.mem_replaceField hf with hf | rfl
      · exact h.fields i f hf
      · exact ht
    · exact h.fields j

theorem copyScope (h : σ.Recorded l) (s : ScopeId) :
    ∃ l', l.Grows l' ∧ (σ.copyScope s).2.Recorded l' := by
  have hgrows := Ledger.Grows.of_extent (h.extent ▸ extent_copyScope (σ := σ) s)
  exact ⟨_, hgrows, rfl, fun hb => (forall_copyScope h.bound hb).mono hgrows,
    fun i => (h.fields i).mono hgrows⟩

theorem addList (h : σ.Recorded l) (ts : List Thunk) : (σ.addList ts).2.Recorded (l.enter ts) where
  extent := by
    show Extent.mk _ _ _ = Extent.mk _ _ _
    rw [h.extent]
    rfl
  bound hb := (h.bound hb).mono (l.grows_enter ts)
  fields i := (h.fields i).mono (l.grows_enter ts)

theorem addInstance (h : σ.Recorded l) {d : Instance} (hd : d.Recorded l) :
    ∃ l', l.Grows l' ∧ (σ.addInstance d).2.Recorded l' := by
  have hgrows := Ledger.Grows.of_extent (h.extent ▸ extent_addInstance (σ := σ) d)
  refine ⟨_, hgrows, rfl, fun hb => (h.bound hb).mono hgrows, fun i => ?_⟩
  rw [instanceAt_addInstance]
  split
  · exact hd.mono hgrows
  · exact (h.fields i).mono hgrows

end Recorded

end Store

/-- Everything that a machine refers to in its store is on record. -/
structure Machine.Recorded (l : Ledger) (m : Machine) : Prop where
  scope : m.scope.index < l.extent.scopes
  store : m.store.Recorded l

theorem Machine.Recorded.issued {m : Machine} (h : m.Recorded l) : m.Issued where
  scope := Nat.lt_of_lt_of_eq h.scope (congrArg Extent.scopes h.store.extent)
  store := h.store.issued

theorem Machine.Issued.recorded {m : Machine} (h : m.Issued) : m.Recorded m.store.extent.ledger :=
  ⟨h.scope, h.store.recorded⟩

/-! ### The judgement -/

namespace Ledger

/-- From a machine on record in one ledger to a machine on record in another: more may have
been made, and the control is as it was. -/
structure Leads (l : Ledger) (m : Machine) (l' : Ledger) (m' : Machine) : Prop where
  recorded : m'.Recorded l'
  grows : l.Grows l'
  control : m'.control = m.control

theorem Leads.trans {a b c : Ledger} {m m' m'' : Machine} (h : a.Leads m b m')
    (h' : b.Leads m' c m'') : a.Leads m c m'' :=
  ⟨h'.recorded, h.grows.trans h'.grows, h'.control.trans h.control⟩

/-- How two steps may end: in the same machine, with results that are related in the ledger
that is there then, or in the same stop. -/
inductive Ends {α β : Type} (A : Ledger → α → β → Prop) (l : Ledger) (m : Machine) :
    EStateM.Result Stop Machine α → EStateM.Result Stop Machine β → Prop
  | ok {a b l' m'} : l.Leads m l' m' → A l' a b → Ends A l m (.ok a m') (.ok b m')
  | error {e l' m'} : l.Leads m l' m' → Ends A l m (.error e m') (.error e m')

/-- From machines that are on record, two steps do the same, and what they leave behind is on
record. -/
def Agree (l : Ledger) {α β : Type} (A : Ledger → α → β → Prop) (x : Eval α) (y : Eval β) : Prop :=
  ∀ m, m.Recorded l → Ends A l m (x m) (y m)

/-- Results that are equal and have a property. -/
def Same {α : Type} (P : Ledger → α → Prop) : Ledger → α → α → Prop := fun l a b => a = b ∧ P l a

variable {α β γ δ : Type} {A : Ledger → α → β → Prop} {B : Ledger → γ → δ → Prop}
variable {P : Ledger → α → Prop} {m : Machine}

/-! ### Rules -/

theorem leads_self (hm : m.Recorded l) : l.Leads m l m := ⟨hm, .refl _, rfl⟩

theorem Agree.pure {a : α} {b : β} (h : A l a b) : l.Agree A (pure a) (pure b) :=
  fun _ hm => .ok (leads_self hm) h

theorem agree_throw (s : Stop) : l.Agree A (throw s) (throw s) := fun _ hm => .error (leads_self hm)

theorem Agree.bind {x : Eval α} {y : Eval β} {f : α → Eval γ} {g : β → Eval δ} (hx : l.Agree A x y)
    (hf : ∀ {l'} a b, l.Grows l' → A l' a b → l'.Agree B (f a) (g b)) :
    l.Agree B (x >>= f) (y >>= g) := by
  intro m hm
  show Ends B l m (EStateM.bind x f m) (EStateM.bind y g m)
  have hr := hx m hm
  unfold EStateM.bind
  generalize x m = r, y m = r' at hr
  cases hr with
  | error hm' => exact .error hm'
  | @ok a b l' m' hm' hab =>
    have hr' := hf a b hm'.grows hab m' hm'.recorded
    dsimp only
    generalize f a m' = r, g b m' = r' at hr'
    cases hr' with
    | ok hn hab => exact .ok (hm'.trans hn) hab
    | error hn => exact .error (hm'.trans hn)

/-! ### What two steps that agree leave behind -/

theorem Agree.of_ok {x : Eval α} {y : Eval β} (h : l.Agree A x y) (hm : m.Recorded l) {a : α}
    {m' : Machine} (hx : x m = .ok a m') : ∃ l', l.Leads m l' m' ∧ ∃ b, A l' a b := by
  have hr := h m hm
  rw [hx] at hr
  generalize y m = r at hr
  cases hr with
  | ok hm' hab => exact ⟨_, hm', _, hab⟩

theorem Agree.left {x y : Eval α} (h : l.Agree (Same P) x y) : l.Agree (Same P) x x := by
  intro m hm
  have hr := h m hm
  generalize x m = r, y m = r' at hr
  cases hr with
  | ok hm' hab => exact .ok hm' ⟨rfl, hab.2⟩
  | error hm' => exact .error hm'

theorem Agree.after {x : Eval α} {y : Eval β} (h : l.Agree A x y) (hm : m.Recorded l) :
    ∃ l', l.Leads m l' (x.after m) := by
  have hr := h m hm
  unfold Eval.after
  generalize x m = r, y m = r' at hr
  cases hr with
  | ok hm' _ => exact ⟨_, hm'⟩
  | error hm' => exact ⟨_, hm'⟩

/-! ### Access to the store -/

/-- A store that changed, and grew with it. -/
theorem leads_update {σ : Store} (hm : m.Recorded l) (hl : l.Grows l') (hσ : σ.Recorded l') :
    l.Leads m l' { m with store := σ } :=
  ⟨⟨Nat.lt_of_lt_of_le hm.scope hl.extent.scopes, hσ⟩, hl, rfl⟩

theorem leads_define {b : Binding} (hm : m.Recorded l) (hb : b.value.Recorded l)
    (s : ScopeId) (n : Name) : l.Leads m l { m with store := m.store.define s n b } :=
  leads_update hm (.refl _) (hm.store.define hb s n)

theorem agree_assign {b : Binding} (hb : b.value.Recorded l) (n : Name) :
    l.Agree (fun _ => Eq) (Eval.assign n b) (Eval.assign n b) := by
  intro m hm
  rw [Eval.assign_apply]
  split
  · exact .ok (leads_self hm) rfl
  · exact .ok (leads_define hm hb _ _) rfl

theorem agree_copyScope :
    l.Agree (Same fun l s => s.index < l.extent.scopes) Eval.copyScope Eval.copyScope := by
  intro m hm
  obtain ⟨k, hk, hstore⟩ := hm.store.copyScope m.scope
  have hlt : m.store.scopes.size < k.extent.scopes := by
    rw [hstore.extent]
    show m.store.scopes.size < (m.store.copyScope m.scope).2.scopes.size
    simp
  exact .ok (leads_update hm hk hstore) ⟨rfl, hlt⟩

theorem agree_newList {ts : List Thunk} (h : ∀ t ∈ ts, t.Recorded l) :
    l.Agree (Same Value.Recorded) (Eval.newList ts) (Eval.newList ts) := by
  intro m hm
  -- the ledger gets an entry for the new list, under the next number
  have hgrows := l.grows_enter ts
  refine .ok (leads_update hm hgrows (hm.store.addList ts)) ⟨rfl, .list (.inr ⟨?_, rfl⟩) ?_⟩
  · exact (congrArg Extent.lists hm.store.extent).symm
  · exact fun t ht => (h t ht).mono hgrows

theorem agree_newInstance {d : Instance} (h : d.Recorded l) :
    l.Agree (Same Value.Recorded) (Eval.newInstance d) (Eval.newInstance d) := by
  intro m hm
  obtain ⟨k, hk, hstore⟩ := hm.store.addInstance h
  refine .ok (leads_update hm hk hstore) ⟨rfl, .data ?_⟩
  rw [hstore.extent]
  show m.store.instances.size < (m.store.addInstance d).2.instances.size
  simp

/-! ### Types -/

theorem agree_declare {c c' : Context} (hc : c'.program = c.program) (type : Name)
    (variants : List Variant) :
    l.Agree (Same Value.Recorded) (c.declare type variants) (c'.declare type variants) := by
  intro m hm
  rw [Context.declare_apply, Context.declare_apply, hc]
  cases m.types.declare c.program.names ⟨type, variants⟩ with
  | error cause => exact .error (leads_self hm)
  | ok types => exact .ok ⟨⟨hm.scope, hm.store⟩, .refl _, rfl⟩ ⟨rfl, .void⟩

theorem agree_construct {c c' : Context} (hc : c'.program = c.program) (type variant : Name)
    (fields : List (Name × NodeId)) :
    l.Agree (Same Value.Recorded) (c.construct type variant fields)
      (c'.construct type variant fields) := by
  intro m hm
  rw [Context.construct_apply, Context.construct_apply, hc]
  cases m.types.variant c.program.names type variant with
  | error cause => exact .error (leads_self hm)
  | ok v =>
    dsimp only
    cases v.checkFields c.program.names type (fields.map (·.1)) with
    | error cause => exact .error (leads_self hm)
    | ok _ =>
      -- the fields are suspended in the current table
      have hd : Instance.Recorded l ⟨type, variant,
          v.arrange (fields.map fun f => (f.1, Thunk.deferred f.2 m.scope))⟩ := by
        intro f hf
        obtain ⟨_, -, hfound⟩ := List.mem_filterMap.1 hf
        obtain ⟨g, -, rfl⟩ := List.mem_map.1 (List.mem_of_find?_eq_some hfound)
        exact .deferred hm.scope
      exact agree_newInstance hd m hm

/-! ### Scope, calls and place -/

theorem Agree.inScope {s : ScopeId} {x : Eval α} {y : Eval β} (hs : s.index < l.extent.scopes)
    (h : l.Agree A x y) : l.Agree A (Eval.inScope s x) (Eval.inScope s y) := by
  intro m hm
  have hr := h { m with scope := s } ⟨hs, hm.store⟩
  have back : ∀ {l' : Ledger} {n : Machine}, l.Leads { m with scope := s } l' n →
      l.Leads m l' { n with scope := m.scope } := by
    intro l' n hn
    have hscope := Nat.lt_of_lt_of_le hm.scope hn.grows.extent.scopes
    exact ⟨⟨hscope, hn.recorded.store⟩, hn.grows,
      Machine.control_of_calls (congrArg Control.calls hn.control)⟩
  unfold Eval.inScope
  dsimp only
  generalize x { m with scope := s } = r, y { m with scope := s } = r' at hr
  cases hr with
  | ok hn hab => exact .ok (back hn) hab
  | error hn => exact .error (back hn)

theorem Agree.inFrame {x : Eval α} {y : Eval β} (names : Names) (f : Frame) (h : l.Agree A x y) :
    l.Agree A (Eval.inFrame names f x) (Eval.inFrame names f y) := by
  intro m hm
  rcases hd : m.calls.push f with c | d
  · unfold Eval.inFrame
    rw [hd]
    exact .error (leads_self hm)
  · have hr := h { m with calls := d } ⟨hm.scope, hm.store⟩
    have back : ∀ {l' : Ledger} {n : Machine}, l.Leads { m with calls := d } l' n →
        l.Leads m l' { n with calls := m.calls } := fun hn =>
      ⟨⟨hn.recorded.scope, hn.recorded.store⟩, hn.grows,
        Machine.control_of_scope (congrArg Control.scope hn.control)⟩
    generalize hx : x { m with calls := d } = r, hy : y { m with calls := d } = r' at hr
    cases hr with
    | ok hn hab =>
      have hc := congrArg Control.calls hn.control
      rw [Eval.inFrame_of_ok _ hd hx hc, Eval.inFrame_of_ok _ hd hy hc]
      exact .ok (back hn) hab
    | error hn =>
      have hc := congrArg Control.calls hn.control
      rw [Eval.inFrame_of_error _ hd hx hc, Eval.inFrame_of_error _ hd hy hc]
      exact .error (back hn)

theorem Agree.locate {x : Eval α} {y : Eval β} (span : Span) (h : l.Agree A x y) :
    l.Agree A (Eval.locate span x) (Eval.locate span y) := by
  intro m hm
  have hr := h m hm
  unfold Eval.locate
  generalize x m = r, y m = r' at hr
  cases hr with
  | ok hn hab => exact .ok hn hab
  | error hn => exact .error hn

/-! ### The evaluator -/

/-- What is on record. -/
def diagonal (p : Program) : Diagonal p where
  refs _ := True
  World := Ledger
  le := Grows
  value l v := v.Recorded l
  scope l s := s.index < l.extent.scopes
  data l i := i.index < l.extent.instances
  refs_name _ := trivial
  le_trans := Grows.trans
  value_mono hl hv := hv.mono hl
  scope_mono hl hs := Nat.lt_of_lt_of_le hs hl.extent.scopes
  data_mono hl hi := Nat.lt_of_lt_of_le hi hl.extent.instances
  value_number := .number
  value_bool := .bool
  value_char := .char
  value_void := .void
  value_function _ := .function _
  refs_function _ _ _ := trivial
  data_of_value h := by
    cases h with
    | data hi => exact hi
  forced h ht := Thunk.recorded_forced_iff.1 ((Value.recorded_list_iff.1 h).2 _ ht)
  deferred h ht := by
    cases (Value.recorded_list_iff.1 h).2 _ ht with
    | deferred hs => exact ⟨trivial, hs⟩

theorem onThunk_iff {p : Program} {t : Thunk} :
    (diagonal p).OnThunk (diagonal p).value l t ↔ t.Recorded l := by
  constructor
  · rintro (hv | ⟨-, hs⟩)
    · exact .forced hv
    · exact .deferred hs
  · rintro (hv | hs)
    · exact .forced hv
    · exact .deferred trivial hs

def judgement (p : Program) : Judgement p p where
  toRelations := (diagonal p).relations
  Index := Unit
  Stance := Unit
  Agree l _ _ _ A x y := Agree l A (x ()) (y ())
  works _ := True
  current _ := True
  fit _ := True
  within _ _ _ := ()
  enters _ _ := True
  entered _ _ _ _ := True
  fit_entered _ := trivial
  pure h := .pure h
  bind hx hf := .bind hx hf
  dangles := True
  has _ := True
  raise _ _ := agree_throw _
  ill_formed _ _ _ _ := agree_throw _
  dangle _ := agree_throw _
  capacity := agree_throw _
  lookup := by
    rintro l _ n _ - ⟨rfl, -⟩ m hm
    exact .ok (leads_self hm) (Diagonal.bound_self fun _ hb => hm.store.bound hb)
  assign := by
    rintro l _ n _ b b' - ⟨rfl, -⟩ hb
    obtain rfl := Diagonal.eq_of_binding hb
    exact agree_assign hb.value.2 n
  define := by
    rintro l _ s _ n _ v _ ⟨rfl, -⟩ ⟨rfl, -⟩ ⟨rfl, hv⟩ m hm
    exact .ok (leads_define (b := ⟨v, .mutable⟩) hm hv s n) trivial
  isBound := by
    rintro l _ s _ n _ ⟨rfl, -⟩ ⟨rfl, -⟩ m hm
    exact .ok (leads_self hm) rfl
  copyScope _ := agree_copyScope
  get _ := fun _ hm => .ok (leads_self hm) ⟨rfl, hm.scope⟩
  newList h := by
    obtain ⟨rfl, hts⟩ := Diagonal.thunks_iff.1 h
    exact agree_newList fun t ht => onThunk_iff.1 (hts t ht)
  instanceAt := by
    rintro l _ i _ ⟨rfl, -⟩ m hm
    exact .ok (leads_self hm)
      (Diagonal.record_self fun f hf => onThunk_iff.2 (hm.store.fields i f hf))
  setField := by
    rintro l _ i _ n _ v _ ⟨rfl, -⟩ ⟨rfl, -⟩ ⟨rfl, hv⟩ m hm
    exact .ok (leads_update hm (.refl _) (hm.store.setField (.forced hv) i n)) trivial
  declare hc hc' _ h := by
    obtain ⟨h, -⟩ := Likeness.onDataType_within.1 h
    cases h
    exact agree_declare ((hc' ()).trans (hc ()).symm) _ _
  construct := by
    rintro l _ t _ v _ fs fs' c c' hc hc' - - - ⟨rfl, -⟩ ⟨rfl, -⟩ hfs
    obtain ⟨rfl, -⟩ := Likeness.onInits_within.1 hfs
    exact agree_construct ((hc' ()).trans (hc ()).symm) _ _ _
  write _ := fun _ hm => .ok ⟨⟨hm.scope, hm.store⟩, .refl _, rfl⟩ trivial
  writeLine _ := fun _ hm => .ok ⟨⟨hm.scope, hm.store⟩, .refl _, rfl⟩ trivial
  inScope := by
    rintro l _ s _ α β A x y ⟨rfl, hs⟩ h
    exact .inScope hs h
  inFrame := by
    rintro l _ n _ span α β A x y - ⟨rfl, -⟩ h
    exact .inFrame _ _ (h () trivial)
  Reach d d' := d () = d' ()
  Depth n d d' := d () = n ∧ d' () = n
  rank _ := (diagonal p).relations.value
  rank_value h := h
  rank_mono := (diagonal p).relations.value_mono
  rank_pair h ha hb := ⟨_, ⟨rfl, h.symm⟩, ha, hb⟩
  rank_list := by
    rintro n l i j xs ys ⟨h, hv⟩
    cases h
    exact Diagonal.thunks_iff.2 ⟨rfl, fun t ht => Diagonal.onThunk_of_mem hv ht⟩
  rank_suspended _ h := h
  rank_data _ h := h
  below := by
    rintro n d d' l _ v v' α β A x y ⟨hd, hd'⟩ - - h
    show Agree l A (Eval.below (x ()) (d ())) (Eval.below (y ()) (d' ()))
    rw [hd, hd']
    cases n with
    | zero => exact agree_throw _
    | succ n => exact h (m := n) (e := fun _ => n) (f := fun _ => n) rfl ⟨rfl, rfl⟩

theorem judgement_locates (p : Program) : (judgement p).Locates := fun span h => .locate span h

end Ledger

/-- A judgement about extents is one about ledgers that have all entries. -/
theorem Extent.Agree.of_ledger {e : Extent} {α : Type} {P : Ledger → α → Prop}
    {Q : Extent → α → Prop} {x y : Eval α} (hPQ : ∀ {l a}, P l a → Q l.extent a)
    (h : ∀ {e'}, e.Grows e' → e'.ledger.Agree (Ledger.Same P) x y) : e.Agree Q x y := by
  intro m hm he
  have hr := h he m hm.recorded
  have hprecedes : ∀ {l' : Ledger} {m' : Machine}, m.store.extent.ledger.Leads m l' m' →
      m.Precedes m' := fun hm' =>
    ⟨hm'.recorded.issued, hm'.recorded.store.extent ▸ hm'.grows.extent, hm'.control⟩
  generalize x m = r, y m = r' at hr
  cases hr with
  | ok hm' hab =>
    obtain ⟨rfl, ha⟩ := hab
    exact ⟨rfl, .ok (hprecedes hm') (hm'.recorded.store.extent ▸ hPQ ha)⟩
  | error hm' => exact ⟨rfl, .error (hprecedes hm')⟩

end LazyExpr
