/-
LazyExpr/Proofs/Simulation.lean

Evaluations in lockstep.

A simulation between two programs is a likeness together with a relation between
stores that every access to the store respects.  `Simulation.Agree` says of two
steps that, from machines that correspond, they end alike: both with values that
are alike or both with stops that are, in machines that correspond again, with
scope and calls as they were.  A step on the left may also end in a stop that is
*excused*; then nothing is said about the right.

The fields of `Simulation` are the only facts about a store that evaluation rests
on: every simulation is a judgement of the evaluator (`Simulation.judgement`).  A
property of one evaluation is a simulation of a program with itself, which
relates equal stores that have the property (see `Invariant`); a comparison of
two runs relates different ones.
-/
import LazyExpr.Proofs.Lockstep

namespace LazyExpr

/-! ### Control -/

/-- What evaluation gives back as it found it: the current scope and the active
calls. -/
structure Control where
  scope : ScopeId
  calls : CallStack

def Machine.control (m : Machine) : Control := ⟨m.scope, m.calls⟩

/-- Coming back from another scope, with the calls as they were. -/
theorem Machine.control_of_calls {m n : Machine} (h : n.calls = m.calls) :
    Machine.control { n with scope := m.scope } = m.control := by
  rw [Machine.control, h]
  rfl

/-- Coming back from a call, with the scope as it was. -/
theorem Machine.control_of_scope {m n : Machine} (h : n.scope = m.scope) :
    Machine.control { n with calls := m.calls } = m.control := by
  rw [Machine.control, h]
  rfl

/-- What a step gave, with another machine in the place of the one that it left
behind. -/
def Eval.mapMachine {α : Type} (g : Machine → Machine) :
    EStateM.Result Stop Machine α → EStateM.Result Stop Machine α
  | .ok a m => .ok a (g m)
  | .error e m => .error e (g m)

theorem Eval.mapMachine_id {α : Type} (r : EStateM.Result Stop Machine α) :
    Eval.mapMachine id r = r := by
  cases r <;> rfl

/-! ### Output and stops that are equal -/

-- Simulations that relate outputs or stops by equality take these for their fields.

theorem Sink.write_eq_of_eq {a b : Sink} (text : String) (h : a = b) :
    a.write text = b.write text := by
  rw [h]

theorem Stop.placedAt_eq_of_eq {_ _ : CallStack} {e e' : Stop} (span : Span) (h : e = e') :
    e.mapFault (·.placedAt span) = e'.mapFault (·.placedAt span) := by
  rw [h]

/-! ### Simulations -/

/-- A likeness that evaluation respects. -/
structure Simulation (p p' : Program) extends Likeness where
  /-- Scopes that nothing else refers to yet. -/
  own : ScopeId → ScopeId → Prop
  state : Store → Types → Store → Types → Prop
  calls : CallStack → CallStack → Prop
  sink : Sink → Sink → Prop
  stop : CallStack → CallStack → Stop → Stop → Prop
  /-- Stops of the left side after which nothing is said about the right. -/
  excused : Stop → Prop
  -- references
  text_eq : ∀ {n n'}, name n n' → p.names.text n = p'.names.text n'
  empty_iff : ∀ {n n'}, name n n' → (n = Name.empty ↔ n' = Name.empty)
  name_iff : ∀ {a a' b b'}, name a a' → name b b' → (a = b ↔ a' = b')
  node_iff : ∀ {a a' b b'}, node a a' → node b b' → (a = b ↔ a' = b')
  data_iff : ∀ {a a' b b'}, data a a' → data b b' → (a = b ↔ a' = b')
  list_iff : ∀ {a a' b b'}, list a a' → list b b' → (a = b ↔ a' = b')
  own_scope : ∀ {s s'}, own s s' → scope s s'
  -- scopes
  find : ∀ {σ τ σ' τ' s s' n n'}, state σ τ σ' τ' → scope s s' → name n n' →
    Option.Rel toLikeness.OnBinding ((σ.bindings s).find? n) ((σ'.bindings s').find? n')
  assign : ∀ {σ τ σ' τ' s s' n n' b b'}, state σ τ σ' τ' → scope s s' → name n n' →
    toLikeness.OnBinding b b' → (σ.bindings s).isImmutable n = false →
    state (σ.define s n b) τ (σ'.define s' n' b') τ'
  define : ∀ {σ τ σ' τ' s s' n n' v v'}, state σ τ σ' τ' → own s s' → name n n' →
    toLikeness.OnValue v v' →
    state (σ.define s n ⟨v, .mutable⟩) τ (σ'.define s' n' ⟨v', .mutable⟩) τ'
  copy : ∀ {σ τ σ' τ' s s'}, state σ τ σ' τ' → scope s s' →
    own (σ.copyScope s).1 (σ'.copyScope s').1 ∧
      state (σ.copyScope s).2 τ (σ'.copyScope s').2 τ'
  -- lists and instances
  add_list : ∀ {σ τ σ' τ'} (ts us : List Thunk), state σ τ σ' τ' →
    list ⟨σ.lists⟩ ⟨σ'.lists⟩ ∧ state (σ.addList ts).2 τ (σ'.addList us).2 τ'
  instance_at : ∀ {σ τ σ' τ' i i'}, state σ τ σ' τ' → data i i' →
    toLikeness.OnInstance (σ.instanceAt i) (σ'.instanceAt i')
  set_field : ∀ {σ τ σ' τ' i i' n n' v v'}, state σ τ σ' τ' → data i i' → name n n' →
    toLikeness.OnValue v v' →
    state (σ.setField i n (.forced v)) τ (σ'.setField i' n' (.forced v')) τ'
  add_instance : ∀ {σ τ σ' τ' d d' v}, state σ τ σ' τ' → toLikeness.OnInstance d d' →
    τ.variant p.names d.type d.variant = .ok v → d.fields.map (·.1) = v.fields →
    data (σ.addInstance d).1 (σ'.addInstance d').1 ∧
      state (σ.addInstance d).2 τ (σ'.addInstance d').2 τ'
  -- types
  variant : ∀ {σ τ σ' τ' t t' v v'}, state σ τ σ' τ' → name t t' → name v v' →
    OnExcept toLikeness.OnVariant (τ.variant p.names t v) (τ'.variant p'.names t' v')
  declare : ∀ {σ τ σ' τ' t t'}, state σ τ σ' τ' → toLikeness.OnDataType t t' →
    OnExcept (fun ts ts' => state σ ts σ' ts') (τ.declare p.names t) (τ'.declare p'.names t')
  -- output
  write : ∀ {a b} (text : String), sink a b → sink (a.write text) (b.write text)
  -- calls and stops
  enter : ∀ {cs cs' n n' d} (sp : Option Span), calls cs cs' → name n n' →
    cs.push ⟨n, sp⟩ = .ok d → ∃ d', cs'.push ⟨n', sp⟩ = .ok d' ∧ calls d d' ∧
      ∀ {e e'}, stop d d' e e' →
        stop cs cs' (e.mapFault (d.attach p.names)) (e'.mapFault (d'.attach p'.names))
  refuse : ∀ {cs cs' n n' c} (sp : Option Span), calls cs cs' → name n n' →
    cs.push ⟨n, sp⟩ = .error c →
    excused (.fault (cs.attach p.names (.ofCause c))) ∨
      ∃ c', cs'.push ⟨n', sp⟩ = .error c' ∧
        stop cs cs' (.fault (cs.attach p.names (.ofCause c)))
          (.fault (cs'.attach p'.names (.ofCause c')))
  raise : ∀ {cs cs'} (c : Cause), calls cs cs' →
    stop cs cs' (.fault (.ofCause c)) (.fault (.ofCause c))
  reach : ∀ {cs cs'}, calls cs cs' → stop cs cs' .outOfReach .outOfReach
  capacity : ∀ {cs cs'}, calls cs cs' → stop cs cs' .overCapacity .overCapacity
  place : ∀ {cs cs' e e'} (span : Span), stop cs cs' e e' →
    stop cs cs' (e.mapFault (·.placedAt span)) (e'.mapFault (·.placedAt span))
  excused_mapFault : ∀ {e} (f : Fault → Fault), (∀ x, (f x).cause = x.cause) →
    excused e → excused (e.mapFault f)

namespace Simulation

variable {p p' : Program} (S : Simulation p p')

/-- Machines correspond, with the control that each of them has. -/
structure Holds (k k' : Control) (m m' : Machine) : Prop where
  left : m.control = k
  right : m'.control = k'
  calls : S.calls k.calls k'.calls
  sink : S.sink m.sink m'.sink
  state : S.state m.store m.types m'.store m'.types

/-- Two steps end alike. -/
inductive Ends (k k' : Control) {α β : Type} (A : α → β → Prop) :
    EStateM.Result Stop Machine α → EStateM.Result Stop Machine β → Prop
  | ok {a b m m'} : A a b → S.Holds k k' m m' → Ends k k' A (.ok a m) (.ok b m')
  | error {e e' m m'} : S.stop k.calls k'.calls e e' → S.Holds k k' m m' →
      Ends k k' A (.error e m) (.error e' m')
  | excused {e m r} : S.excused e → m.control = k → Ends k k' A (.error e m) r

/-- From machines that correspond, two steps end alike. -/
def Agree (k k' : Control) {α β : Type} (A : α → β → Prop) (x : Eval α) (y : Eval β) : Prop :=
  ∀ m m', S.Holds k k' m m' → S.Ends k k' A (x m) (y m')

variable {S} {k k' : Control} {α β γ δ : Type} {A : α → β → Prop} {B : γ → δ → Prop}

/-! ### Rules -/

theorem Agree.pure {a : α} {b : β} (h : A a b) : S.Agree k k' A (pure a) (pure b) :=
  fun _ _ hm => .ok h hm

theorem Agree.bind {x : Eval α} {y : Eval β} {f : α → Eval γ} {g : β → Eval δ}
    (hx : S.Agree k k' A x y) (hf : ∀ a b, A a b → S.Agree k k' B (f a) (g b)) :
    S.Agree k k' B (x >>= f) (y >>= g) := by
  intro m m' hm
  show S.Ends k k' B (EStateM.bind x f m) (EStateM.bind y g m')
  have h := hx m m' hm
  unfold EStateM.bind
  generalize x m = r, y m' = r' at h
  cases h with
  | ok hab hm => exact hf _ _ hab _ _ hm
  | error he hm => exact .error he hm
  | excused he hk => exact .excused he hk

/-! ### Ways to stop -/

theorem agree_raise (c : Cause) : S.Agree k k' A (Eval.raise c) (Eval.raise c) :=
  fun _ _ hm => .error (S.raise c hm.calls) hm

/-- Bounds on a depth: the same on both sides, unless the left may run out. -/
def Bounds (S : Simulation p p') (stop : Stop) (d d' : Nat) : Prop :=
  d = d' ∨ d ≤ d' ∧ S.excused stop

theorem Bounds.pred {stop : Stop} {d d' : Nat} (h : S.Bounds stop (d + 1) d') :
    ∃ e, d' = e + 1 ∧ S.Bounds stop d e := by
  rcases h with rfl | ⟨hle, he⟩
  · exact ⟨d, rfl, .inl rfl⟩
  · obtain ⟨e, rfl⟩ : ∃ e, d' = e + 1 := ⟨d' - 1, by omega⟩
    exact ⟨e, rfl, .inr ⟨by omega, he⟩⟩

/-- Where the left is at its bound, the right is too, or the stop is excused. -/
theorem Bounds.zero {stop : Stop} {d' : Nat} {y : Eval β} (h : S.Bounds stop 0 d')
    (hy : d' = 0 → y = throw stop) (hstop : ∀ {cs cs'}, S.calls cs cs' → S.stop cs cs' stop stop) :
    S.Agree k k' A (throw stop) y := by
  rcases h with rfl | ⟨-, he⟩
  · rw [hy rfl]
    exact fun _ _ hm => .error (hstop hm.calls) hm
  · exact fun _ _ hm => .excused he hm.left

/-! ### Access to the store -/

/-- Machines go on to correspond when their stores change together. -/
theorem Holds.update {m m' : Machine} {σ σ' : Store} {τ τ' : Types} (hm : S.Holds k k' m m')
    (h : S.state σ τ σ' τ') :
    S.Holds k k' { m with store := σ, types := τ } { m' with store := σ', types := τ' } :=
  { hm with state := h }

/-- The scopes in which machines evaluate now, if those of the control are
alike. -/
theorem Holds.current {m m' : Machine} (hm : S.Holds k k' m m')
    (hs : S.scope k.scope k'.scope) : S.scope m.scope m'.scope := by
  rw [← hm.left, ← hm.right] at hs
  exact hs

theorem agree_lookup {n n' : Name} (hs : S.scope k.scope k'.scope) (hn : S.name n n') :
    S.Agree k k' (Option.Rel S.OnBinding) (Eval.lookup? n) (Eval.lookup? n') :=
  fun _ _ hm => .ok (S.find hm.state (hm.current hs) hn) hm

theorem isImmutable_eq {σ σ' : Store} {τ τ' : Types} {s s' : ScopeId} {n n' : Name}
    (hσ : S.state σ τ σ' τ') (hs : S.scope s s') (hn : S.name n n') :
    (σ.bindings s).isImmutable n = (σ'.bindings s').isImmutable n' := by
  have h := S.find hσ hs hn
  unfold Bindings.isImmutable
  generalize (σ.bindings s).find? n = b, (σ'.bindings s').find? n' = b' at h
  cases h with
  | none => rfl
  | some hb => exact congrArg (· == Mutability.immutable) hb.mutability

theorem agree_assign {n n' : Name} {b b' : Binding} (hs : S.scope k.scope k'.scope)
    (hn : S.name n n') (hb : S.OnBinding b b') :
    S.Agree k k' (· = ·) (Eval.assign n b) (Eval.assign n' b') := by
  intro m m' hm
  have himm := isImmutable_eq hm.state (hm.current hs) hn
  rw [Eval.assign_apply, Eval.assign_apply, ← himm]
  cases h : (m.store.bindings m.scope).isImmutable n with
  | true => exact .ok rfl hm
  | false => exact .ok rfl (hm.update (S.assign hm.state (hm.current hs) hn hb h))

theorem agree_define {s s' : ScopeId} {n n' : Name} {v v' : Value} (hs : S.own s s')
    (hn : S.name n n') (hv : S.OnValue v v') :
    S.Agree k k' (fun _ _ => True) (Eval.define s n ⟨v, .mutable⟩)
      (Eval.define s' n' ⟨v', .mutable⟩) :=
  fun _ _ hm => .ok trivial (hm.update (S.define hm.state hs hn hv))

theorem agree_isBound {s s' : ScopeId} {n n' : Name} (hs : S.own s s') (hn : S.name n n') :
    S.Agree k k' (· = ·) (Eval.isBound s n) (Eval.isBound s' n') := by
  intro m m' hm
  refine .ok ?_ hm
  have h := S.find hm.state (S.own_scope hs) hn
  unfold Bindings.contains
  generalize (m.store.bindings s).find? n = b, (m'.store.bindings s').find? n' = b' at h
  cases h <;> rfl

theorem agree_copyScope (hs : S.scope k.scope k'.scope) :
    S.Agree k k' S.own Eval.copyScope Eval.copyScope := by
  intro m m' hm
  obtain ⟨hown, hσ⟩ := S.copy hm.state (hm.current hs)
  exact .ok hown (hm.update hσ)

theorem agree_newList {ts us : List Thunk} (h : List.Forall₂ S.OnThunk ts us) :
    S.Agree k k' S.OnValue (Eval.newList ts) (Eval.newList us) := by
  intro m m' hm
  obtain ⟨hl, hσ⟩ := S.add_list ts us hm.state
  exact .ok (.list hl (Likeness.onThunks_iff.2 h)) (hm.update hσ)

theorem agree_setField {i i' : InstanceId} {n n' : Name} {v v' : Value} (hi : S.data i i')
    (hn : S.name n n') (hv : S.OnValue v v') :
    S.Agree k k' (fun _ _ => True) (Eval.setField i n (.forced v))
      (Eval.setField i' n' (.forced v')) :=
  fun _ _ hm => .ok trivial (hm.update (S.set_field hm.state hi hn hv))

theorem agree_write (text : String) :
    S.Agree k k' (fun _ _ => True) (Eval.write text) (Eval.write text) :=
  fun _ _ hm => .ok trivial { hm with sink := S.write text hm.sink }

theorem agree_writeLine (text : String) :
    S.Agree k k' (fun _ _ => True) (Eval.writeLine text) (Eval.writeLine text) :=
  fun _ _ hm => .ok trivial { hm with sink := S.write "\n" (S.write text hm.sink) }

/-! ### Scope, calls and place -/

theorem Agree.inScope {s s' : ScopeId} {x : Eval α} {y : Eval β}
    (h : S.Agree ⟨s, k.calls⟩ ⟨s', k'.calls⟩ A x y) :
    S.Agree k k' A (Eval.inScope s x) (Eval.inScope s' y) := by
  intro m m' hm
  obtain rfl := hm.left
  obtain rfl := hm.right
  have hr := h { m with scope := s } { m' with scope := s' }
    ⟨rfl, rfl, hm.calls, hm.sink, hm.state⟩
  -- coming back, each side takes up its own scope again
  have back : ∀ {n n' : Machine}, S.Holds ⟨s, m.calls⟩ ⟨s', m'.calls⟩ n n' →
      S.Holds m.control m'.control { n with scope := m.scope } { n' with scope := m'.scope } :=
    fun hn => ⟨Machine.control_of_calls (congrArg Control.calls hn.left),
      Machine.control_of_calls (congrArg Control.calls hn.right), hm.calls, hn.sink, hn.state⟩
  unfold Eval.inScope
  simp only [Machine.control] at hr
  generalize x { m with scope := s } = r, y { m' with scope := s' } = r' at hr
  cases hr with
  | ok hab hn => exact .ok hab (back hn)
  | error he hn => exact .error he (back hn)
  | excused he hk => exact .excused he (Machine.control_of_calls (congrArg Control.calls hk))

theorem Agree.locate {x : Eval α} {y : Eval β} (span : Span) (h : S.Agree k k' A x y) :
    S.Agree k k' A (Eval.locate span x) (Eval.locate span y) := by
  intro m m' hm
  have hr := h m m' hm
  unfold Eval.locate
  generalize x m = r, y m' = r' at hr
  cases hr with
  | ok hab hn => exact .ok hab hn
  | error he hn => exact .error (S.place span he) hn
  | excused he hk => exact .excused (S.excused_mapFault _ (fun x => x.cause_placedAt span) he) hk

theorem Agree.inFrame {n n' : Name} {x : Eval α} {y : Eval β} (sp : Option Span)
    (hn : S.name n n')
    (h : ∀ d d', k.calls.push ⟨n, sp⟩ = .ok d → k'.calls.push ⟨n', sp⟩ = .ok d' →
      S.calls d d' → S.Agree ⟨k.scope, d⟩ ⟨k'.scope, d'⟩ A x y) :
    S.Agree k k' A (Eval.inFrame p.names ⟨n, sp⟩ x) (Eval.inFrame p'.names ⟨n', sp⟩ y) := by
  intro m m' hm
  obtain rfl := hm.left
  obtain rfl := hm.right
  rcases hd : m.calls.push ⟨n, sp⟩ with c | d
  · -- the call is refused on the left
    unfold Eval.inFrame
    rw [hd]
    rcases S.refuse sp hm.calls hn hd with he | ⟨c', hc', he⟩
    · exact .excused he hm.left
    · rw [show m'.calls.push ⟨n', sp⟩ = .error c' from hc']
      exact .error he hm
  · obtain ⟨d', hd', hcalls, hleave⟩ := S.enter sp hm.calls hn hd
    replace hd' : m'.calls.push ⟨n', sp⟩ = .ok d' := hd'
    have hr := h d d' hd hd' hcalls { m with calls := d } { m' with calls := d' }
      ⟨rfl, rfl, hcalls, hm.sink, hm.state⟩
    -- coming back, each side takes up its own calls again
    have back : ∀ {l l' : Machine}, S.Holds ⟨m.scope, d⟩ ⟨m'.scope, d'⟩ l l' →
        S.Holds m.control m'.control { l with calls := m.calls } { l' with calls := m'.calls } :=
      fun hl => ⟨Machine.control_of_scope (congrArg Control.scope hl.left),
        Machine.control_of_scope (congrArg Control.scope hl.right), hm.calls, hl.sink, hl.state⟩
    simp only [Machine.control] at hr
    generalize hx : x { m with calls := d } = r, hy : y { m' with calls := d' } = r' at hr
    cases hr with
    | ok hab hl =>
      rw [Eval.inFrame_of_ok _ hd hx (congrArg Control.calls hl.left),
        Eval.inFrame_of_ok _ hd' hy (congrArg Control.calls hl.right)]
      exact .ok hab (back hl)
    | error he hl =>
      rw [Eval.inFrame_of_error _ hd hx (congrArg Control.calls hl.left),
        Eval.inFrame_of_error _ hd' hy (congrArg Control.calls hl.right)]
      exact .error (hleave he) (back hl)
    | excused he hk =>
      rw [Eval.inFrame_of_error _ hd hx (congrArg Control.calls hk)]
      exact .excused (S.excused_mapFault _ (fun f => CallStack.cause_attach _ _ f) he)
        (Machine.control_of_scope (congrArg Control.scope hk))

/-! ### The judgement -/

section Judgement

variable (S)

def relations : Relations p p' where
  toVocabulary := S.toVocabulary
  World := Unit
  le _ _ := True
  value _ := S.OnValue
  scope _ := S.scope
  own _ := S.own
  data _ := S.data
  le_trans _ _ := trivial
  value_mono _ h := h
  scope_mono _ h := h
  own_mono _ h := h
  data_mono _ h := h
  own_scope := S.own_scope
  text_eq := S.text_eq
  empty_iff := S.empty_iff
  name_iff := S.name_iff
  node_iff := S.node_iff
  data_iff := S.data_iff
  list_iff h h' := by
    cases h with
    | list hi _ =>
      cases h' with
      | list hj _ => exact S.list_iff hi hj
  value_number := .number
  value_bool := .bool
  value_char := .char
  value_void := .void
  value_function := .function
  form h := by
    cases h with
    | number n => exact .number n
    | bool b => exact .bool b
    | char c => exact .char c
    | list _ hx => exact .list ((Likeness.onThunks_iff.1 hx).imp fun _ _ => Likeness.onThunk_iff.1)
    | function hf => exact .function hf
    | data hi => exact .data hi
    | void => exact .void

variable {S} {c c' : Context}

theorem agree_declare (hl : c.program = p) (hr : c'.program = p') {t t' : Name}
    {vs vs' : List Variant} (h : S.OnDataType ⟨t, vs⟩ ⟨t', vs'⟩) :
    S.Agree k k' S.OnValue (c.declare t vs) (c'.declare t' vs') := by
  intro m m' hm
  have hd := S.declare hm.state h
  rw [Context.declare_apply, Context.declare_apply, hl, hr]
  generalize m.types.declare p.names ⟨t, vs⟩ = r, m'.types.declare p'.names ⟨t', vs'⟩ = r' at hd
  cases hd with
  | ok hτ => exact .ok .void (hm.update hτ)
  | error cause => exact .error (S.raise cause hm.calls) hm

/-- The suspended fields of a constructor. -/
theorem suspend_rel {s s' : ScopeId} {fs fs' : List (Name × NodeId)} (hs : S.scope s s')
    (h : List.Forall₂ S.OnInit fs fs') :
    List.Forall₂ S.OnField (fs.map fun f => (f.1, Thunk.deferred f.2 s))
      (fs'.map fun f => (f.1, Thunk.deferred f.2 s')) := by
  induction h with
  | nil => exact .nil
  | cons hf _ ih => exact .cons ⟨hf.name, .deferred hf.node hs⟩ ih

theorem agree_construct (hl : c.program = p) (hr : c'.program = p')
    (hs : S.scope k.scope k'.scope) {t t' v v' : Name} {fs fs' : List (Name × NodeId)}
    (ht : S.name t t') (hv : S.name v v') (hfs : List.Forall₂ S.OnInit fs fs') :
    S.Agree k k' S.OnValue (c.construct t v fs) (c'.construct t' v' fs') := by
  intro m m' hm
  have hnames : List.Forall₂ S.name (fs.map (·.1)) (fs'.map (·.1)) :=
    List.rel_map (fun _ _ hf => hf.name) hfs
  have hthunks := suspend_rel (hm.current hs) hfs
  have hw := S.variant hm.state ht hv
  rw [Context.construct_apply, Context.construct_apply, hl, hr]
  generalize hr : m.types.variant p.names t v = r, m'.types.variant p'.names t' v' = r' at hw
  cases hw with
  | error cause => exact .error (S.raise cause hm.calls) hm
  | @ok w w' hw =>
    dsimp only
    rw [← Relations.checkFields_eq (R := S.relations) hw ht hnames]
    cases hok : w.checkFields p.names t (fs.map (·.1)) with
    | error cause => exact .error (S.raise cause hm.calls) hm
    | ok _ =>
      -- the check has passed, so the new instance has exactly the declared fields
      have hfields : (w.arrange (fs.map fun f => (f.1, Thunk.deferred f.2 m.scope))).map (·.1)
          = w.fields := by
        have hok' := hok
        rw [← show ((fs.map fun f => (f.1, Thunk.deferred f.2 m.scope)).map (·.1))
          = fs.map (·.1) by rw [List.map_map]; rfl] at hok'
        exact Variant.names_arrange hok'
      have hd : S.OnInstance ⟨t, v, _⟩ ⟨t', v', _⟩ :=
        ⟨ht, hv, Relations.arrange_rel (R := S.relations) hw hthunks⟩
      obtain ⟨hi, hσ⟩ := S.add_instance hm.state hd hr hfields
      exact .ok (.data hi) (hm.update hσ)

variable (S)

/-- Controls are the stances, one for each side. -/
def judgement : Judgement p p' where
  toRelations := S.relations
  Index := Unit
  Stance := Control × Control
  Agree _ k _ _ A x y := S.Agree k.1 k.2 (A ()) (x ()) (y ())
  works _ := True
  current k := S.scope k.1.scope k.2.scope
  fit k := S.calls k.1.calls k.2.calls
  within k s s' := (⟨s, k.1.calls⟩, ⟨s', k.2.calls⟩)
  enters _ _ := True
  entered k f f' k' := ∃ d d', k.1.calls.push f = .ok d ∧ k.2.calls.push f' = .ok d' ∧
    S.calls d d' ∧ k' = (⟨k.1.scope, d⟩, ⟨k.2.scope, d'⟩)
  fit_entered := by
    rintro k f f' k' ⟨d, d', -, -, hd, rfl⟩
    exact hd
  pure h := Agree.pure h
  bind hx hf := Agree.bind hx fun a b hab => hf (u := ()) a b trivial hab
  dangles := ∀ {cs cs'}, S.calls cs cs' → S.stop cs cs' .dangling .dangling
  has _ := True
  raise _ _ := agree_raise _
  ill_formed _ _ _ _ := agree_raise _
  dangle hstop := fun _ _ hm => .error (hstop hm.calls) hm
  capacity := fun _ _ hm => .error (S.capacity hm.calls) hm
  lookup hs hn := agree_lookup hs hn
  assign hs hn hb := agree_assign hs hn hb
  define hs hn hv := agree_define hs hn hv
  isBound hs hn := agree_isBound hs hn
  copyScope hs := agree_copyScope hs
  get hs := fun _ _ hm => .ok (hm.current hs) hm
  newList h := agree_newList (h.imp fun _ _ => Likeness.onThunk_iff.2)
  instanceAt hi := fun _ _ hm => .ok ((S.instance_at hm.state hi).imp Likeness.onThunk_iff.1) hm
  setField hi hn hv := agree_setField hi hn hv
  declare hl hr _ h := agree_declare (hl ()) (hr ()) h
  construct hl hr _ hs _ ht hv hfs := agree_construct (hl ()) (hr ()) hs ht hv hfs
  write := agree_write
  writeLine := agree_writeLine
  inScope _ h := Agree.inScope h
  inFrame _ hn h := Agree.inFrame _ hn fun d d' hd hd' hcalls =>
    h _ ⟨d, d', hd, hd', hcalls, rfl⟩
  Reach d d' := S.Bounds .outOfReach (d ()) (d' ())
  Depth n d d' := d () = n ∧ S.Bounds .outOfReach n (d' ())
  rank _ _ := S.OnValue
  rank_value h := h
  rank_mono _ h := h
  rank_pair hd ha hb := ⟨_, ⟨rfl, hd⟩, ha, hb⟩
  rank_list h := by
    cases h with
    | list _ hx => exact (Likeness.onThunks_iff.1 hx).imp fun _ _ => Likeness.onThunk_iff.1
  rank_suspended _ h := h
  rank_data _ h := h
  below := by
    rintro n d d' w k v v' α β A x y ⟨rfl, hd⟩ - - h
    show S.Agree k.1 k.2 (A ()) (Eval.below (x ()) (d ())) (Eval.below (y ()) (d' ()))
    generalize hn : d () = n at hd h
    cases n with
    | zero => exact hd.zero (fun e => by rw [e]; rfl) S.reach
    | succ n =>
      obtain ⟨e, he, hd⟩ := hd.pred
      rw [he]
      exact h (e := fun _ => n) (f := fun _ => e) rfl ⟨rfl, hd⟩

/-- The stance of two controls. -/
def stance (k k' : Control) : S.judgement.Stance := (k, k')

theorem judgement_locates : S.judgement.Locates := fun span h => Agree.locate span h

end Judgement

/-! ### Simulations of equal things -/

/-- If stores and types that correspond are equal, machines that do can differ in sink
and control alone. -/
theorem Holds.eq {m m' : Machine} (hm : S.Holds k k' m m')
    (hstate : ∀ {σ τ σ' τ'}, S.state σ τ σ' τ' → σ = σ' ∧ τ = τ') :
    m' = ⟨m.store, m.types, m'.sink, k'.scope, k'.calls⟩ := by
  obtain ⟨hσ, hτ⟩ := hstate hm.state
  rw [hσ, hτ, ← hm.right]
  rfl

/-- Two steps that agree do the same up to the machine, unless the first ends in an
excused stop. -/
theorem Agree.eq_or_excused {x y : Eval α} {A : α → α → Prop} {g : Machine → Machine}
    {m m' : Machine} (h : S.Agree k k' A x y) (hm : S.Holds k k' m m')
    (hA : ∀ {a b}, A a b → a = b) (hstop : ∀ {cs cs' e e'}, S.stop cs cs' e e' → e = e')
    (hg : ∀ {n n'}, S.Holds k k' n n' → n' = g n) :
    (∃ e n, x m = .error e n ∧ S.excused e) ∨ y m' = Eval.mapMachine g (x m) := by
  have hr := h m m' hm
  generalize x m = r, y m' = r' at hr
  cases hr with
  | ok ha hn =>
    rw [← hA ha, hg hn]
    exact .inr rfl
  | error he hn =>
    rw [← hstop he, hg hn]
    exact .inr rfl
  | excused he _ => exact .inl ⟨_, _, rfl, he⟩

end Simulation

end LazyExpr
