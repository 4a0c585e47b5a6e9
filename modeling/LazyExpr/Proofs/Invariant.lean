/-
LazyExpr/Proofs/Invariant.lean

Invariants of evaluation.

An invariant is a property of the store and the declared types that every access
keeps, together with a set of references: what is read from the store refers to
nothing outside of the set, and only what lies in the set is written or followed.
It may also restrict the ways to stop.

An invariant is a simulation of a program with itself, of equal things within the
set (`Invariant.simulation`).  That it is kept by a whole evaluation is then no
induction of its own, but the lockstep theorem read on the diagonal.  With some
stops excused on the left (`Invariant.excusing`), it compares two evaluations of
the same program that differ in their bounds.
-/
import LazyExpr.Proofs.Agreement
import LazyExpr.Proofs.Reference

namespace LazyExpr

/-- The machine that a step leaves behind, whether it succeeds or not. -/
def Eval.after {α : Type} (x : Eval α) (m : Machine) : Machine :=
  match x m with
  | .ok _ m' => m'
  | .error _ m' => m'

theorem Eval.after_of_ok {α : Type} {x : Eval α} {m m' : Machine} {a : α} (h : x m = .ok a m') :
    x.after m = m' := by
  rw [Eval.after, h]

theorem Eval.after_of_error {α : Type} {x : Eval α} {m m' : Machine} {e : Stop}
    (h : x m = .error e m') : x.after m = m' := by
  rw [Eval.after, h]

/-- The fault that a step ended with. -/
def Eval.fault? {α : Type} : EStateM.Result Stop Machine α → Option Fault
  | .error (.fault f) _ => some f
  | _ => none

theorem Eval.exists_of_fault? {α : Type} {r : EStateM.Result Stop Machine α} {f : Fault}
    (h : Eval.fault? r = some f) : ∃ m, r = .error (.fault f) m := by
  unfold Eval.fault? at h
  split at h
  · cases h
    exact ⟨_, rfl⟩
  · cases h

theorem Eval.bind_of_ok {α β : Type} {x : Eval α} {f : α → Eval β} {m m' : Machine} {a : α}
    (h : x m = .ok a m') : (x >>= f) m = f a m' := by
  show EStateM.bind x f m = _
  rw [EStateM.bind, h]

theorem Eval.bind_of_error {α β : Type} {x : Eval α} {f : α → Eval β} {m m' : Machine} {e : Stop}
    (h : x m = .error e m') : (x >>= f) m = .error e m' := by
  show EStateM.bind x f m = _
  rw [EStateM.bind, h]

/-- A sequence succeeds when its parts do, one after the other. -/
theorem Eval.bind_eq_ok {α β : Type} {x : Eval α} {f : α → Eval β} {m m' : Machine} {b : β} :
    (x >>= f) m = .ok b m' ↔ ∃ a m₁, x m = .ok a m₁ ∧ f a m₁ = .ok b m' := by
  show EStateM.bind x f m = _ ↔ _
  unfold EStateM.bind
  rcases x m with ⟨a, m₁⟩ | ⟨e, m₁⟩
  · simp
  · simp

/-- A check that succeeds does nothing else. -/
theorem Eval.check_eq_ok {α : Type} {x : Except Cause α} {m m' : Machine} {a : α} :
    Eval.check x m = .ok a m' ↔ x = .ok a ∧ m = m' := by
  constructor
  · intro h
    rcases x with cause | b
    · cases h
    · cases h
      exact ⟨rfl, rfl⟩
  · rintro ⟨rfl, rfl⟩
    rfl

theorem Eval.present_eq_ok {α : Type} {o : Option α} {m m' : Machine} {a : α} :
    Eval.present o m = .ok a m' ↔ o = some a ∧ m = m' := by
  constructor
  · intro h
    rcases o with - | b
    · cases h
    · cases h
      exact ⟨rfl, rfl⟩
  · rintro ⟨rfl, rfl⟩
    rfl

/-- A property of store and types that evaluation keeps.  The conditions on active
calls and ways to stop hold by themselves where nothing is said about them. -/
structure Invariant (p : Program) where
  refs : Ref → Prop
  /-- Scopes that nothing else refers to yet. -/
  own : ScopeId → Prop
  state : Store → Types → Prop
  calls : CallStack → Prop := fun _ => True
  stop : CallStack → Stop → Prop := fun _ _ => True
  -- scopes
  own_scope : ∀ {s}, own s → refs (.scope s)
  find : ∀ {σ τ s n b}, state σ τ → refs (.scope s) → refs (.name n) →
    (σ.bindings s).find? n = some b → b.value.Within refs
  assign : ∀ {σ τ s n b}, state σ τ → refs (.scope s) → refs (.name n) →
    b.value.Within refs → (σ.bindings s).isImmutable n = false → state (σ.define s n b) τ
  define : ∀ {σ τ s n v}, state σ τ → own s → refs (.name n) → v.Within refs →
    state (σ.define s n ⟨v, .mutable⟩) τ
  copy : ∀ {σ τ s}, state σ τ → refs (.scope s) →
    own (σ.copyScope s).1 ∧ state (σ.copyScope s).2 τ
  -- lists and instances
  add_list : ∀ {σ τ} (ts : List Thunk), state σ τ → state (σ.addList ts).2 τ
  instance_at : ∀ {σ τ i}, state σ τ → refs (.data i) → (σ.instanceAt i).Within refs
  set_field : ∀ {σ τ i n v}, state σ τ → refs (.data i) → refs (.name n) → v.Within refs →
    state (σ.setField i n (.forced v)) τ
  add_instance : ∀ {σ τ d v}, state σ τ → d.Within refs →
    τ.variant p.names d.type d.variant = .ok v → d.fields.map (·.1) = v.fields →
    refs (.data (σ.addInstance d).1) ∧ state (σ.addInstance d).2 τ
  -- types
  variant : ∀ {σ τ t v w}, state σ τ → τ.variant p.names t v = .ok w → ∀ r ∈ w.refs, refs r
  declare : ∀ {σ τ τ' t}, state σ τ → (∀ r ∈ t.refs, refs r) →
    τ.declare p.names t = .ok τ' → state σ τ'
  -- the program
  node : ∀ {n a}, refs (.node n) → p.node? n = some a →
    (∀ m ∈ a.kind.children, refs (.node m)) ∧ ∀ r ∈ a.kind.refs, refs r
  suspended : ∀ {n}, refs (.suspended n) → refs (.node n)
  -- active calls and ways to stop
  push : ∀ {cs f d}, calls cs → cs.push f = .ok d → calls d := by intros; trivial
  no_node : ∀ {n} cs, refs (.node n) → p.node? n = none → stop cs .dangling := by
    intros; trivial
  no_number : ∀ {a} cs, refs (.number a) → p.number? a = none → stop cs .dangling := by
    intros; trivial
  raise : ∀ cs c, stop cs (.fault (.ofCause c)) := by intros; trivial
  reach : ∀ cs, stop cs .outOfReach := by intros; trivial
  capacity : ∀ cs, stop cs .overCapacity := by intros; trivial
  place : ∀ {cs e} (span : Span), stop cs e → stop cs (e.mapFault (·.placedAt span)) := by
    intros; trivial
  leave : ∀ {cs f d e}, cs.push f = .ok d → stop d e →
    stop cs (e.mapFault (d.attach p.names)) := by intros; trivial
  refuse : ∀ {cs f c}, cs.push f = .error c →
    stop cs (.fault (cs.attach p.names (.ofCause c))) := by intros; trivial

namespace Invariant

variable {p : Program} (I : Invariant p)

/-! ### The simulation -/

/-- Equality of what has the property, up to some stops of the left side. -/
def excusing (x : Stop → Prop)
    (hx : ∀ {e} (f : Fault → Fault), (∀ a, (f a).cause = a.cause) → x e → x (e.mapFault f)) :
    Simulation p p where
  toLikeness := .within I.refs
  own s s' := s = s' ∧ I.own s
  state σ τ σ' τ' := σ = σ' ∧ τ = τ' ∧ I.state σ τ
  calls cs cs' := cs = cs' ∧ I.calls cs
  sink := (· = ·)
  stop cs _ e e' := e = e' ∧ I.stop cs e
  excused := x
  text_eq := by
    rintro n _ ⟨rfl, -⟩
    rfl
  empty_iff := by
    rintro n _ ⟨rfl, -⟩
    rfl
  name_iff := by
    rintro a _ b _ ⟨rfl, -⟩ ⟨rfl, -⟩
    rfl
  node_iff := by
    rintro a _ b _ ⟨rfl, -⟩ ⟨rfl, -⟩
    rfl
  data_iff := by
    rintro a _ b _ ⟨rfl, -⟩ ⟨rfl, -⟩
    rfl
  list_iff := by
    rintro a _ b _ rfl rfl
    rfl
  own_scope := by
    rintro s _ ⟨rfl, hs⟩
    exact ⟨rfl, I.own_scope hs⟩
  find := by
    rintro σ τ _ _ s _ n _ ⟨rfl, rfl, hσ⟩ ⟨rfl, hs⟩ ⟨rfl, hn⟩
    rcases hb : (σ.bindings s).find? n with - | b
    · exact .none
    · exact .some (Likeness.onBinding_within.2 ⟨rfl, I.find hσ hs hn hb⟩)
  assign := by
    rintro σ τ _ _ s _ n _ b b' ⟨rfl, rfl, hσ⟩ ⟨rfl, hs⟩ ⟨rfl, hn⟩ hb himm
    obtain ⟨rfl, hvalue⟩ := Likeness.onBinding_within.1 hb
    exact ⟨rfl, rfl, I.assign hσ hs hn hvalue himm⟩
  define := by
    rintro σ τ _ _ s _ n _ v v' ⟨rfl, rfl, hσ⟩ ⟨rfl, hs⟩ ⟨rfl, hn⟩ hv
    obtain ⟨rfl, hvalue⟩ := Likeness.onValue_within.1 hv
    exact ⟨rfl, rfl, I.define hσ hs hn hvalue⟩
  copy := by
    rintro σ τ _ _ s _ ⟨rfl, rfl, hσ⟩ ⟨rfl, hs⟩
    obtain ⟨hown, hσ'⟩ := I.copy hσ hs
    exact ⟨⟨rfl, hown⟩, rfl, rfl, hσ'⟩
  add_list := by
    rintro σ τ _ _ ts us ⟨rfl, rfl, hσ⟩
    exact ⟨rfl, rfl, rfl, I.add_list ts hσ⟩
  instance_at := by
    rintro σ τ _ _ i _ ⟨rfl, rfl, hσ⟩ ⟨rfl, hi⟩
    exact Likeness.onInstance_within.2 ⟨rfl, I.instance_at hσ hi⟩
  set_field := by
    rintro σ τ _ _ i _ n _ v v' ⟨rfl, rfl, hσ⟩ ⟨rfl, hi⟩ ⟨rfl, hn⟩ hv
    obtain ⟨rfl, hvalue⟩ := Likeness.onValue_within.1 hv
    exact ⟨rfl, rfl, I.set_field hσ hi hn hvalue⟩
  add_instance := by
    rintro σ τ _ _ d d' v ⟨rfl, rfl, hσ⟩ hd hv hnames
    obtain ⟨rfl, hwithin⟩ := Likeness.onInstance_within.1 hd
    obtain ⟨hi, hσ'⟩ := I.add_instance hσ hwithin hv hnames
    exact ⟨⟨rfl, hi⟩, rfl, rfl, hσ'⟩
  variant := by
    rintro σ τ _ _ t _ v _ ⟨rfl, rfl, hσ⟩ ⟨rfl, -⟩ ⟨rfl, -⟩
    rcases hw : τ.variant p.names t v with c | w
    · exact .error c
    · exact .ok (Likeness.onVariant_within.2 ⟨rfl, I.variant hσ hw⟩)
  declare := by
    rintro σ τ _ _ t t' ⟨rfl, rfl, hσ⟩ ht
    obtain ⟨rfl, hrefs⟩ := Likeness.onDataType_within.1 ht
    rcases hτ : τ.declare p.names t with c | τ'
    · exact .error c
    · exact .ok ⟨rfl, rfl, I.declare hσ hrefs hτ⟩
  write := @Sink.write_eq_of_eq
  enter := by
    rintro cs _ n _ d sp ⟨rfl, hcs⟩ ⟨rfl, -⟩ hd
    refine ⟨d, hd, ⟨rfl, I.push hcs hd⟩, ?_⟩
    rintro e _ ⟨rfl, he⟩
    exact ⟨rfl, I.leave hd he⟩
  refuse := by
    rintro cs _ n _ c sp ⟨rfl, -⟩ ⟨rfl, -⟩ hd
    exact .inr ⟨c, hd, rfl, I.refuse hd⟩
  raise := by
    rintro cs _ c ⟨rfl, -⟩
    exact ⟨rfl, I.raise cs c⟩
  reach := by
    rintro cs _ ⟨rfl, -⟩
    exact ⟨rfl, I.reach cs⟩
  capacity := by
    rintro cs _ ⟨rfl, -⟩
    exact ⟨rfl, I.capacity cs⟩
  place := by
    rintro cs _ e _ span ⟨rfl, he⟩
    exact ⟨rfl, I.place span he⟩
  excused_mapFault := hx

/-- Equality of what has the property. -/
def simulation : Simulation p p := I.excusing (fun _ => False) fun _ _ h => h

/-! ### What a step keeps -/

/-- A machine has the property, and its scope lies in the set. -/
structure Holds (m : Machine) : Prop where
  scope : I.refs (.scope m.scope)
  calls : I.calls m.calls
  state : I.state m.store m.types

/-- A step that started in `m` keeps the property and ends as it may. -/
inductive Keeps {α : Type} (P : α → Prop) (m : Machine) : EStateM.Result Stop Machine α → Prop
  | ok {a m'} : P a → m'.control = m.control → I.state m'.store m'.types →
      Keeps P m (.ok a m')
  | error {e m'} : I.stop m.calls e → m'.control = m.control → I.state m'.store m'.types →
      Keeps P m (.error e m')

variable {I} {α : Type} {P : α → Prop} {m m' : Machine} {x : Eval α}

theorem Keeps.state_after (h : I.Keeps P m (x m)) :
    I.state (x.after m).store (x.after m).types := by
  unfold Eval.after
  generalize x m = r at h
  cases h with
  | ok _ _ hσ => exact hσ
  | error _ _ hσ => exact hσ

/-- Scope and calls are as they were, whatever the step did. -/
theorem Keeps.control_after (h : I.Keeps P m (x m)) : (x.after m).control = m.control := by
  unfold Eval.after
  generalize x m = r at h
  cases h with
  | ok _ hm _ => exact hm
  | error _ hm _ => exact hm

/-- A step that agrees with itself keeps the property. -/
theorem keeps_of_agree {A : α → α → Prop}
    (h : I.simulation.Agree m.control m.control A x x) (hP : ∀ a, A a a → P a)
    (hcs : I.calls m.calls) (hm : I.state m.store m.types) : I.Keeps P m (x m) := by
  have hr := h m m ⟨rfl, rfl, ⟨rfl, hcs⟩, rfl, rfl, rfl, hm⟩
  generalize x m = r at hr
  cases hr with
  | ok ha hn => exact .ok (hP _ ha) hn.left hn.state.2.2
  | error he hn => exact .error he.2 hn.left hn.state.2.2
  | excused he _ => exact he.elim

section

variable {y : Stop → Prop}
variable {hy : ∀ {e} (f : Fault → Fault), (∀ a, (f a).cause = a.cause) → y e → y (e.mapFault f)}

/-- Machines that correspond under one control are the same. -/
theorem eq_of_holds {k : Control} (h : (I.excusing y hy).Holds k k m m') : m' = m := by
  have hsink : m.sink = m'.sink := h.sink
  rw [h.eq fun hσ => ⟨hσ.1, hσ.2.1⟩, ← h.left, ← hsink]
  rfl

/-- Two steps that agree do the same, unless the first ends in an excused stop. -/
theorem eq_or_excused {A : α → α → Prop} {x' : Eval α}
    (h : (I.excusing y hy).Agree m.control m.control A x x') (hA : ∀ {a b}, A a b → a = b)
    (hcs : I.calls m.calls) (hm : I.state m.store m.types) :
    (∃ e n, x m = .error e n ∧ y e) ∨ x' m = x m := by
  have heq := h.eq_or_excused (g := id) (m := m) ⟨rfl, rfl, ⟨rfl, hcs⟩, rfl, rfl, rfl, hm⟩ hA
    (fun he => he.1) eq_of_holds
  rw [Eval.mapMachine_id] at heq
  exact heq

end

/-! ### What an evaluation keeps -/

variable {fuel reach rest : Nat}

section

variable {y : Stop → Prop}
variable {hy : ∀ {e} (f : Fault → Fault), (∀ a, (f a).cause = a.cause) → y e → y (e.mapFault f)}

theorem onNode {child : NodeId → Prop} {n : NodeId} (hn : I.refs (.node n))
    (hchild : ∀ a, p.node? n = some a → ∀ m ∈ a.kind.children, child m) :
    (I.excusing y hy).Present ((I.excusing y hy).OnNode fun a b => a = b ∧ child a) (p.node? n)
      (p.node? n) := by
  rcases ha : p.node? n with - | a
  · exact .none fun {cs} _ hcs => ⟨rfl, I.no_node cs hn ha⟩
  · exact .some ⟨Likeness.onKind_within (fun m hm => ⟨rfl, hchild a ha m hm⟩) (I.node hn ha).2,
      rfl⟩

theorem onNumber {a : NumberId} (ha : I.refs (.number a)) :
    (I.excusing y hy).Present (· = ·) (p.number? a) (p.number? a) := by
  rcases hd : p.number? a with - | d
  · exact .none fun {cs} _ hcs => ⟨rfl, I.no_number cs ha hd⟩
  · exact .some rfl

theorem programs (hfuel : ∀ cs, I.stop cs .outOfFuel) : (I.excusing y hy).Programs := by
  refine ⟨?_, ?_, ?_, ?_⟩
  · rintro n _ ⟨rfl, hn⟩
    exact onNode hn fun a ha => (I.node hn ha).1
  · rintro a _ ⟨rfl, ha⟩
    exact onNumber ha
  · rintro n _ ⟨rfl, hn⟩
    exact ⟨rfl, I.suspended hn⟩
  · rintro cs _ ⟨rfl, -⟩
    exact ⟨rfl, hfuel cs⟩

end

/-- Contexts of an evaluation that may run out of fuel. -/
theorem contexts (hfuel : ∀ cs, I.stop cs .outOfFuel) {k : Control} (hs : I.refs (.scope k.scope))
    (hcs : I.calls k.calls) :
    I.simulation.Contexts k k I.simulation.node (p.context fuel reach rest)
      (p.context fuel reach rest) :=
  Simulation.context_agree (programs hfuel) (.inl rfl) (.inl rfl) (.inl rfl) ⟨rfl, hs⟩ ⟨rfl, hcs⟩

variable (fuel reach rest) in
theorem eval_keeps (hfuel : ∀ cs, I.stop cs .outOfFuel) {n : NodeId} (hn : I.refs (.node n))
    (hm : I.Holds m) :
    I.Keeps (·.Within I.refs) m ((p.context fuel reach rest).eval n m) := by
  refine keeps_of_agree ((contexts hfuel hm.scope hm.calls).eval ⟨rfl, hn⟩) ?_ hm.calls hm.state
  exact fun v hv => (Likeness.onValue_within.1 hv).2

/-! ### What is done from outside -/

variable {c : Context} {child : NodeId → NodeId → Prop}

theorem run_keeps (hc : I.simulation.Contexts m.control m.control child c c) {roots : List NodeId}
    (hr : ∀ r ∈ roots, child r r) (hm : I.state m.store m.types) :
    I.Keeps (·.Within I.refs) m (run c roots m) := by
  refine keeps_of_agree (Simulation.run_agree hc (List.forall₂_same.2 hr)) ?_ hc.calls.2 hm
  exact fun v hv => (Likeness.onValue_within.1 hv).2

theorem display_keeps (hc : I.simulation.Contexts m.control m.control child c c) {v : Value}
    (hv : v.Within I.refs) (hm : I.state m.store m.types) :
    I.Keeps (fun _ => True) m (c.display v m) := by
  refine keeps_of_agree (Simulation.display_text_agree hc ?_) (fun _ _ => trivial) hc.calls.2 hm
  exact Likeness.onValue_within.2 ⟨rfl, hv⟩

theorem equal_keeps (hc : I.simulation.Contexts m.control m.control child c c) {v w : Value}
    (hv : v.Within I.refs) (hw : w.Within I.refs) (hm : I.state m.store m.types) :
    I.Keeps (fun _ => True) m (v.equal c.force c.reach w m) := by
  refine keeps_of_agree (Simulation.equal_agree hc ?_ ?_) (fun _ _ => trivial) hc.calls.2 hm
  · exact Likeness.onValue_within.2 ⟨rfl, hv⟩
  · exact Likeness.onValue_within.2 ⟨rfl, hw⟩

theorem apply_keeps (hc : I.simulation.Contexts m.control m.control child c c) (op : BinaryOp)
    {v w : Value} (hv : v.Within I.refs) (hw : w.Within I.refs) (hm : I.state m.store m.types) :
    I.Keeps (·.Within I.refs) m (op.apply c.force c.reach v w m) := by
  refine keeps_of_agree (Simulation.apply_agree hc op ?_ ?_) ?_ hc.calls.2 hm
  · exact Likeness.onValue_within.2 ⟨rfl, hv⟩
  · exact Likeness.onValue_within.2 ⟨rfl, hw⟩
  · exact fun u hu => (Likeness.onValue_within.1 hu).2

end Invariant

/-- The programs of a simulation that relates equal things, all of them within the set
of an invariant: the second program has what the set refers to in the first. -/
theorem Simulation.Programs.of_within {p q : Program} {S : Simulation p q} (I : Invariant p)
    (hlike : S.toLikeness = .within I.refs)
    (hnode : ∀ {n}, I.refs (.node n) → q.node? n = p.node? n)
    (hnumber : ∀ {a}, I.refs (.number a) → q.number? a = p.number? a)
    (hstop : ∀ {cs cs'} (e : Stop), S.calls cs cs' → S.stop cs cs' e e) : S.Programs where
  node := by
    rw [hlike]
    rintro n _ ⟨rfl, hn⟩
    rw [hnode hn]
    rcases ha : p.node? n with - | a
    · exact .none (hstop _)
    · exact .some ⟨Likeness.onKind_within (fun m hm => ⟨rfl, (I.node hn ha).1 m hm⟩)
        (I.node hn ha).2, rfl⟩
  number := by
    rw [hlike]
    rintro a _ ⟨rfl, ha⟩
    rw [hnumber ha]
    rcases p.number? a with - | d
    · exact .none (hstop _)
    · exact .some rfl
  suspended := by
    rw [hlike]
    rintro n _ ⟨rfl, hn⟩
    exact ⟨rfl, I.suspended hn⟩
  fuel := hstop _

/-! ### Properties of the store alone -/

/-- A property of store and types that evaluation keeps whatever it refers to. -/
structure StoreInvariant (p : Program) where
  /-- Scopes that nothing else refers to yet. -/
  own : ScopeId → Prop
  state : Store → Types → Prop
  assign : ∀ {σ τ s n} (b : Binding), state σ τ → (σ.bindings s).isImmutable n = false →
    state (σ.define s n b) τ
  define : ∀ {σ τ s} (n : Name) (v : Value), state σ τ → own s →
    state (σ.define s n ⟨v, .mutable⟩) τ
  copy : ∀ {σ τ} (s : ScopeId), state σ τ → own (σ.copyScope s).1 ∧ state (σ.copyScope s).2 τ
  add_list : ∀ {σ τ} (ts : List Thunk), state σ τ → state (σ.addList ts).2 τ
  set_field : ∀ {σ τ} (i : InstanceId) (n : Name) (t : Thunk), state σ τ →
    state (σ.setField i n t) τ
  add_instance : ∀ {σ τ d v}, state σ τ → τ.variant p.names d.type d.variant = .ok v →
    d.fields.map (·.1) = v.fields → state (σ.addInstance d).2 τ
  declare : ∀ {σ τ τ' t}, state σ τ → τ.declare p.names t = .ok τ' → state σ τ'

namespace StoreInvariant

variable {p : Program} (J : StoreInvariant p)

/-- The invariant with no restriction on references. -/
def toInvariant : Invariant p where
  refs _ := True
  own := J.own
  state := J.state
  own_scope _ := trivial
  find _ _ _ _ := fun _ _ => trivial
  assign h _ _ _ himm := J.assign _ h himm
  define h hs _ _ := J.define _ _ h hs
  copy h _ := J.copy _ h
  add_list ts h := J.add_list ts h
  instance_at _ _ := ⟨trivial, trivial, fun _ _ => ⟨trivial, fun _ _ => trivial⟩⟩
  set_field h _ _ _ := J.set_field _ _ _ h
  add_instance h _ hv hnames := ⟨trivial, J.add_instance h hv hnames⟩
  variant _ _ := fun _ _ => trivial
  declare h _ hτ := J.declare h hτ
  node _ _ := ⟨fun _ _ => trivial, fun _ _ => trivial⟩
  suspended _ := trivial

theorem contexts {fuel reach rest : Nat} (k : Control) :
    J.toInvariant.simulation.Contexts k k J.toInvariant.simulation.node
      (p.context fuel reach rest) (p.context fuel reach rest) :=
  Invariant.contexts (fun _ => trivial) trivial trivial

/-- Evaluation keeps the property, whether it succeeds or not. -/
theorem state_eval (fuel reach rest : Nat) (n : NodeId) {m : Machine}
    (hm : J.state m.store m.types) :
    J.state (((p.context fuel reach rest).eval n).after m).store
      (((p.context fuel reach rest).eval n).after m).types := by
  have h : J.toInvariant.Holds m := ⟨trivial, trivial, hm⟩
  exact (Invariant.eval_keeps fuel reach rest (fun _ => trivial) (n := n) trivial h).state_after

end StoreInvariant

/-- Any store at all. -/
def anyStore (p : Program) : StoreInvariant p where
  own _ := True
  state _ _ := True
  assign _ _ _ := trivial
  define _ _ _ _ := trivial
  copy _ _ := ⟨trivial, trivial⟩
  add_list _ _ := trivial
  set_field _ _ _ _ := trivial
  add_instance _ _ _ := trivial
  declare _ _ := trivial

end LazyExpr
