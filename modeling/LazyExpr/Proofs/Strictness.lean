/-
LazyExpr/Proofs/Strictness.lean

Strict values, and steps that settle.

A value is strict if no part of it is suspended, no part of it is data, and the
functions in it have their bodies in the program.  A program is strict if no node of it makes
a list of its parts or an instance: these are the nodes that suspend something.  To force an
element of a strict list is to read it, so a walk through a strict value comes to an end.
How deep it goes is known only when the value is: a list can be put into a list at run time,
and no reach is large enough for all of them.

The judgement is therefore about families of steps, one for each index of some kind (the
index says how large the reach is, and what else may vary).  Along a filter on the
indices, the members of the family from some point on all do the same: they end in a
value, in a fault, or for want of room, with scope and calls as they were, in a store
that is strict again (`Settles`).  It is a judgement in the sense of `Judgement`
(`Settles.judgement`): families settle in sequence as their parts do, and where the depth of
a walk grows without bound along the filter, it has a level left.
-/
import Mathlib.Order.Filter.AtTopBot.Basic
import LazyExpr.Proofs.Diagonal
import LazyExpr.Proofs.Supervision
import LazyExpr.Proofs.Layout

namespace LazyExpr

open Filter

/-! ### Strict values -/

/-- Nothing in a value is suspended or data, and the program has the bodies of its
functions. -/
inductive Value.Strict (p : Program) : Value → Prop
  | number (n : Decimal) : Value.Strict p (.number n)
  | bool (b : Bool) : Value.Strict p (.bool b)
  | char (c : Char) : Value.Strict p (.char c)
  | list (i : ListId) {vs : List Value} : (∀ v ∈ vs, Value.Strict p v) →
      Value.Strict p (.list i (vs.map .forced))
  | function {f : Function} : f.body.index < p.size → Value.Strict p (.function f)
  | void : Value.Strict p .void

/-- A thunk that holds a strict value. -/
def Thunk.Strict (p : Program) (t : Thunk) : Prop := ∃ v, t = .forced v ∧ v.Strict p

variable {p : Program}

theorem Thunk.strict_map_forced {vs : List Value} (h : ∀ v ∈ vs, v.Strict p) :
    ∀ t ∈ vs.map Thunk.forced, t.Strict p := by
  intro t ht
  obtain ⟨v, hv, rfl⟩ := List.mem_map.1 ht
  exact ⟨v, rfl, h v hv⟩

theorem Value.strict_list_iff {i : ListId} {ts : List Thunk} :
    (Value.list i ts).Strict p ↔ ∀ t ∈ ts, t.Strict p := by
  constructor
  · intro h
    cases h with
    | list _ hvs => exact Thunk.strict_map_forced hvs
  · intro h
    obtain ⟨vs, rfl, hvs⟩ : ∃ vs : List Value, ts = vs.map .forced ∧ ∀ v ∈ vs, v.Strict p := by
      induction ts with
      | nil => exact ⟨[], rfl, fun v hv => nomatch hv⟩
      | cons t ts ih =>
        obtain ⟨⟨v, rfl, hv⟩, hts⟩ := List.forall_mem_cons.1 h
        obtain ⟨vs, rfl, hvs⟩ := ih hts
        exact ⟨v :: vs, rfl, List.forall_mem_cons.2 ⟨hv, hvs⟩⟩
    exact .list i hvs

/-! ### Strict programs -/

/-- Nothing is suspended by a node of this kind. -/
def Kind.isStrict : Kind → Bool
  | .list _ => false
  | .construct _ _ _ => false
  | _ => true

/-- No node of a program suspends anything. -/
def Program.Strict (p : Program) : Prop := ∀ a ∈ p.nodes, a.kind.isStrict = true

instance (p : Program) : Decidable p.Strict :=
  inferInstanceAs (Decidable (∀ a ∈ p.nodes, a.kind.isStrict = true))

/-- The program has what is referred to, and nothing is to be suspended. -/
def Ref.Strict (p : Program) : Ref → Prop
  | .number a => a.index < p.numbers.size
  | .node n => n.index < p.size
  | .suspended _ => False
  | _ => True

theorem Ref.Strict.of_has {r : Ref} (h : p.Has r) (hr : ∀ n, r ≠ .suspended n) : r.Strict p := by
  cases r with
  | number a => exact h
  | node n => exact h
  | suspended n => exact hr n rfl
  | _ => trivial

theorem Kind.suspended_notMem_refs {k : Kind} (h : k.isStrict = true) (n : NodeId) :
    .suspended n ∉ k.refs := by
  cases k with
  | list items => cases h
  | construct type variant fields => cases h
  | _ => simp [Kind.refs, Function.refs, DataType.refs, Variant.refs]

theorem Program.Strict.refs (h : p.Strict) (hp : p.WellFormed) {n : NodeId} {a : Node}
    (ha : p.node? n = some a) : ∀ r ∈ a.kind.refs, r.Strict p := by
  intro r hr
  refine .of_has (hp.refs ha r hr) ?_
  rintro m rfl
  exact Kind.suspended_notMem_refs (h a (Array.mem_of_getElem? ha)) m hr

/-! ### Strict stores -/

/-- All values that are bound are strict, and there are no instances. -/
structure Store.Strict (p : Program) (σ : Store) : Prop where
  bound : ∀ {s n b}, (σ.bindings s).find? n = some b → b.value.Strict p
  instances : σ.instances = #[]

namespace Store.Strict

variable {σ : Store}

theorem define (h : σ.Strict p) {b : Binding} (hb : b.value.Strict p) (s : ScopeId) (n : Name) :
    (σ.define s n b).Strict p where
  bound := forall_define h.bound hb
  instances := h.instances

theorem copyScope (h : σ.Strict p) (s : ScopeId) : (σ.copyScope s).2.Strict p where
  bound := forall_copyScope h.bound
  instances := h.instances

theorem addList (h : σ.Strict p) (ts : List Thunk) : (σ.addList ts).2.Strict p :=
  ⟨h.bound, h.instances⟩

end Store.Strict

/-! ### The judgement -/

/-- A fault, or a list that there is no room for.  More fuel or reach is of no help
against these. -/
def Stop.Definite : Stop → Prop
  | .fault _ => True
  | .overCapacity => True
  | _ => False

theorem Stop.Definite.mapFault {e : Stop} (h : e.Definite) (f : Fault → Fault) :
    (e.mapFault f).Definite := by
  cases e with
  | fault x => trivial
  | _ => exact h

/-- A step ends in a value or in a definite stop, with the control as it was and a strict
store. -/
inductive EndsStrict (p : Program) (k : Control) {α : Type} (Q : α → Prop) :
    EStateM.Result Stop Machine α → Prop
  | ok {a m} : Q a → m.control = k → m.store.Strict p → EndsStrict p k Q (.ok a m)
  | stop {e m} : e.Definite → m.control = k → m.store.Strict p → EndsStrict p k Q (.error e m)

/-- From a machine with a strict store, all steps of a family from some point on end in
the same way. -/
def Settles {ι : Type} (l : Filter ι) (p : Program) (k : Control) {α : Type} (Q : α → Prop)
    (x : ι → Eval α) : Prop :=
  ∀ m : Machine, m.control = k → m.store.Strict p →
    ∃ r, EndsStrict p k Q r ∧ ∀ᶠ i in l, x i m = r

variable {ι : Type} {l : Filter ι} {k : Control} {α β : Type} {Q : α → Prop} {R : β → Prop}
variable {d : ι → Nat}

namespace Settles

/-! ### Rules -/

/-- Steps that do not depend on the index. -/
theorem const {x : Eval α}
    (h : ∀ m : Machine, m.control = k → m.store.Strict p → EndsStrict p k Q (x m)) :
    Settles l p k Q fun _ => x :=
  fun m hk hm => ⟨x m, h m hk hm, .of_forall fun _ => rfl⟩

theorem pure {a : α} (h : Q a) : Settles l p k Q fun _ => (Pure.pure a : Eval α) :=
  const fun _ hk hm => .ok h hk hm

theorem imp {Q' : α → Prop} {x : ι → Eval α} (h : Settles l p k Q x) (hQ : ∀ a, Q a → Q' a) :
    Settles l p k Q' x := by
  intro m hk hm
  obtain ⟨r, hr, hxr⟩ := h m hk hm
  cases hr with
  | ok ha hk' hm' => exact ⟨_, .ok (hQ _ ha) hk' hm', hxr⟩
  | stop he hk' hm' => exact ⟨_, .stop he hk' hm', hxr⟩

theorem congr {x y : ι → Eval α} (h : ∀ᶠ i in l, x i = y i) (hy : Settles l p k Q y) :
    Settles l p k Q x := by
  intro m hk hm
  obtain ⟨r, hr, hyr⟩ := hy m hk hm
  refine ⟨r, hr, ?_⟩
  filter_upwards [h, hyr] with i hi hyi
  rw [hi, hyi]

theorem bind {x : ι → Eval α} {f : ι → α → Eval β} (hx : Settles l p k Q x)
    (hf : ∀ a, Q a → Settles l p k R fun i => f i a) :
    Settles l p k R fun i => x i >>= f i := by
  intro m hk hm
  obtain ⟨r, hr, hxr⟩ := hx m hk hm
  cases hr with
  | @ok a m' ha hk' hm' =>
    obtain ⟨r', hr', hfr⟩ := hf a ha m' hk' hm'
    refine ⟨r', hr', ?_⟩
    filter_upwards [hxr, hfr] with i hi hi'
    rw [Eval.bind_of_ok hi, hi']
  | stop he hk' hm' =>
    refine ⟨_, .stop he hk' hm', ?_⟩
    filter_upwards [hxr] with i hi
    exact Eval.bind_of_error hi

/-! ### Ways to stop -/

theorem raise (c : Cause) : Settles l p k Q fun _ => Eval.raise c :=
  const fun _ hk hm => .stop trivial hk hm

/-! ### Access to the store -/

theorem assign {b : Binding} (hb : b.value.Strict p) (n : Name) :
    Settles l p k (fun _ => True) fun _ => Eval.assign n b := by
  refine const fun m hk hm => ?_
  rw [Eval.assign_apply]
  split
  · exact .ok trivial hk hm
  · exact .ok trivial hk (hm.define hb _ n)

theorem declare {c : ι → Context} (hc : ∀ i, (c i).program = p) (type : Name)
    (variants : List Variant) :
    Settles l p k (fun v => ∃ w, v = w ∧ v.Strict p) fun i => (c i).declare type variants := by
  intro m hk hm
  simp only [Context.declare_apply, hc]
  cases m.types.declare p.names ⟨type, variants⟩ with
  | error cause => exact raise cause m hk hm
  | ok types =>
    exact ⟨.ok .void { m with types }, .ok ⟨_, rfl, .void⟩ hk hm, .of_forall fun _ => rfl⟩

/-! ### Scope, calls and place -/

theorem inScope {s : ScopeId} {x : ι → Eval α} (h : Settles l p ⟨s, k.calls⟩ Q x) :
    Settles l p k Q fun i => Eval.inScope s (x i) := by
  rintro m rfl hm
  obtain ⟨r, hr, hxr⟩ := h { m with scope := s } rfl hm
  -- coming back, the scope is taken up again, and the calls are as they were
  have back : ∀ {n : Machine}, n.control = ⟨s, m.calls⟩ →
      Machine.control { n with scope := m.scope } = m.control :=
    fun hn => Machine.control_of_calls (congrArg Control.calls hn)
  refine ⟨Eval.mapMachine (fun n => { n with scope := m.scope }) r, ?_, ?_⟩
  · cases hr with
    | ok ha hk hn => exact .ok ha (back hk) hn
    | stop he hk hn => exact .stop he (back hk) hn
  · filter_upwards [hxr] with i hi
    rw [Eval.inScope, hi]
    rfl

theorem inFrame {names : Names} {f : Frame} {x : ι → Eval α}
    (h : ∀ d, k.calls.push f = .ok d → Settles l p ⟨k.scope, d⟩ Q x) :
    Settles l p k Q fun i => Eval.inFrame names f (x i) := by
  rintro m rfl hm
  rcases hd : m.calls.push f with c | d
  · refine ⟨.error (.fault (m.calls.attach names (.ofCause c))) m, .stop trivial rfl hm,
      .of_forall fun i => ?_⟩
    simp only [Eval.inFrame, hd]
  · obtain ⟨r, hr, hxr⟩ := h d hd { m with calls := d } rfl hm
    have back : ∀ {n : Machine}, n.control = ⟨m.scope, d⟩ →
        Machine.control { n with calls := m.calls } = m.control :=
      fun hn => Machine.control_of_scope (congrArg Control.scope hn)
    cases hr with
    | ok ha hk hn =>
      refine ⟨_, .ok ha (back hk) hn, ?_⟩
      filter_upwards [hxr] with i hi
      exact Eval.inFrame_of_ok names hd hi (congrArg Control.calls hk)
    | stop he hk hn =>
      refine ⟨_, .stop (he.mapFault (d.attach names)) (back hk) hn, ?_⟩
      filter_upwards [hxr] with i hi
      exact Eval.inFrame_of_error names hd hi (congrArg Control.calls hk)

theorem locate {x : ι → Eval α} (span : Span) (h : Settles l p k Q x) :
    Settles l p k Q fun i => Eval.locate span (x i) := by
  intro m hk hm
  obtain ⟨r, hr, hxr⟩ := h m hk hm
  cases hr with
  | ok ha hk' hn =>
    refine ⟨_, .ok ha hk' hn, ?_⟩
    filter_upwards [hxr] with i hi
    rw [Eval.locate, hi]
  | stop he hk' hn =>
    refine ⟨_, .stop (he.mapFault (·.placedAt span)) hk' hn, ?_⟩
    filter_upwards [hxr] with i hi
    rw [Eval.locate, hi]

/-! ### Walks through values -/

/-- A walk whose depth grows without bound has a level left. -/
theorem deeper {x : Nat → ι → Eval α} (hd : Tendsto d l atTop)
    (h : ∀ {e : ι → Nat}, Tendsto e l atTop → Settles l p k Q fun i => x (e i + 1) i) :
    Settles l p k Q fun i => x (d i) i := by
  have hpred : Tendsto (fun i => d i - 1) l atTop := (tendsto_sub_atTop_nat 1).comp hd
  refine (h hpred).congr ?_
  filter_upwards [hd.eventually_ge_atTop 1] with i hi
  rw [Nat.sub_add_cancel hi]

/-! ### The evaluator -/

/-- Strict values stand for themselves. -/
def diagonal (p : Program) : Diagonal p where
  refs := Ref.Strict p
  World := Unit
  le _ _ := True
  value _ v := v.Strict p
  scope _ _ := True
  data _ _ := False
  refs_name _ := trivial
  le_trans _ _ := trivial
  value_mono _ h := h
  scope_mono _ h := h
  data_mono _ h := h
  value_number := .number
  value_bool := .bool
  value_char := .char
  value_void := .void
  value_function h := .function (h (.node _) (by simp [Function.refs]))
  refs_function := by
    rintro _ f (_ | _ | _ | _ | hf | _) r hr
    simp only [Function.refs, List.mem_cons, List.mem_map] at hr
    rcases hr with rfl | rfl | ⟨n, -, rfl⟩
    · trivial
    · exact hf
    · trivial
  data_of_value h := nomatch h
  forced h ht := by
    obtain ⟨w, hw, hstrict⟩ := Value.strict_list_iff.1 h _ ht
    cases hw
    exact hstrict
  deferred h ht := by
    obtain ⟨w, hw, -⟩ := Value.strict_list_iff.1 h _ ht
    cases hw

theorem strict_of_onThunk {t : Thunk} (h : (diagonal p).OnThunk (diagonal p).value () t) :
    t.Strict p := by
  cases h with
  | forced hv => exact ⟨_, rfl, hv⟩
  | deferred hn _ => exact hn.elim

/-- The rank of a value is its size, and there is depth for any rank in the end. -/
def judgement (l : Filter ι) (p : Program) : Judgement p p where
  toRelations := (diagonal p).relations
  Index := ι
  Stance := Control
  Agree _ k _ _ A x _ := Settles l p k (fun a => ∃ b, A () a b) x
  works _ := True
  current _ := True
  fit _ := True
  within k s _ := ⟨s, k.calls⟩
  enters _ _ := True
  entered k f _ k' := ∃ d, k.calls.push f = .ok d ∧ k' = ⟨k.scope, d⟩
  fit_entered _ := trivial
  pure h := .pure ⟨_, h⟩
  bind hx hf := by
    refine hx.bind ?_
    rintro a ⟨b, hab⟩
    exact hf (u := ()) a b trivial hab
  dangles := False
  has a := a.isStrict = true
  raise _ _ := .raise _
  ill_formed _ _ _ _ := .raise _
  dangle h := h.elim
  capacity := .const fun _ hk hm => .stop trivial hk hm
  lookup := by
    rintro _ k n _ - ⟨rfl, -⟩
    exact .const fun _ hk hm => .ok ⟨_, Diagonal.bound_self fun _ hb => hm.bound hb⟩ hk hm
  assign hk hn hb := (assign hb.value.2 _).imp fun a _ => ⟨a, rfl⟩
  define := by
    rintro _ k s _ n _ v _ ⟨rfl, -⟩ ⟨rfl, -⟩ ⟨rfl, hv⟩
    exact .const fun _ hk hm => .ok ⟨(), trivial⟩ hk (hm.define (b := ⟨v, .mutable⟩) hv s n)
  isBound _ _ := .const fun _ hk hm => .ok ⟨_, rfl⟩ hk hm
  copyScope _ := .const fun m hk hm => .ok ⟨_, rfl, trivial⟩ hk (hm.copyScope m.scope)
  get _ := .const fun m hk hm => .ok ⟨m, rfl, trivial⟩ hk hm
  newList := by
    rintro _ k ts ts' h
    obtain ⟨-, hts⟩ := Diagonal.thunks_iff.1 h
    have hstrict : ∀ i, (Value.list i ts).Strict p := fun _ =>
      Value.strict_list_iff.2 fun t ht => strict_of_onThunk (hts t ht)
    exact .const fun _ hk hm => .ok ⟨_, rfl, hstrict _⟩ hk (hm.addList ts)
  instanceAt h := h.2.elim
  setField h _ _ := h.2.elim
  declare hc _ _ _ := .declare hc _ _
  construct _ _ _ _ h _ _ _ := nomatch h
  write _ := .const fun _ hk hm => .ok ⟨(), trivial⟩ hk hm
  writeLine _ := .const fun _ hk hm => .ok ⟨(), trivial⟩ hk hm
  inScope _ h := .inScope h
  inFrame _ _ h := .inFrame fun d hd => h _ ⟨d, hd, rfl⟩
  Reach d _ := Tendsto d l atTop
  Depth _ d _ := Tendsto d l atTop
  rank n _ v v' := v = v' ∧ v.Strict p ∧ sizeOf v ≤ n
  rank_value h := ⟨h.1, h.2.1⟩
  rank_mono _ h := h
  rank_pair := by
    rintro d _ _ a _ b _ hd ⟨rfl, ha⟩ ⟨rfl, hb⟩
    exact ⟨sizeOf a + sizeOf b, hd, ⟨rfl, ha, by omega⟩, ⟨rfl, hb, by omega⟩⟩
  rank_list := by
    rintro n w i j xs ys ⟨h, hv, hsize⟩
    cases h
    refine List.forall₂_same.2 fun t ht => ?_
    obtain ⟨v, rfl, hstrict⟩ := Value.strict_list_iff.1 hv t ht
    have hlt := List.sizeOf_lt_of_mem ht
    simp only [Value.list.sizeOf_spec, Thunk.forced.sizeOf_spec] at hsize hlt
    exact .forced ⟨rfl, hstrict, by omega⟩
  rank_suspended h _ := h.2.elim
  rank_data h _ := h.2.elim
  below := by
    rintro n d d' _ k v v' α β A x y hd ⟨-, -, hsize⟩ hnests h
    -- a value that others are in is not the smallest
    obtain ⟨n, rfl⟩ : ∃ m, n = m + 1 := by
      cases hnests <;> exact ⟨n - 1, by simp at hsize; omega⟩
    exact deeper (x := fun e i => Eval.below (x i) e) hd fun he => h (f := d') rfl he

theorem judgement_locates : (judgement l p).Locates := fun span h => .locate span h

end Settles

end LazyExpr
