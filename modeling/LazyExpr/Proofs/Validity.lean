/-
LazyExpr/Proofs/Validity.lean

Valid sessions, and the fuel that they need.

A session is valid if its program is well formed and its store refers only to what
the program has.  Sessions that start with the prelude stay valid, whatever is
added to them and run in them (`Session.Reachable.valid`).

In a valid session fuel does not run out.  Node evaluations that are nested in each
other go from a node to its parts, which stand before it, or from a call to the body
of a function, with one active call more.  So the pair of the calls that may still be
entered and the place of the node decreases in lexicographic order, and

    (limit - depth) * size + index

bounds the nesting.  The induction on fuel takes this as its hypothesis
(`evalWith_valid`).  A suspended node starts anew, with all the fuel and one level of
reach less; nothing bounds how often that happens.
-/
import LazyExpr.Proofs.History
import LazyExpr.Proofs.Layout

namespace LazyExpr

/-! ### Stores and types -/

/-- What the store refers to is in the program. -/
structure Store.Supported (p : Program) (σ : Store) : Prop where
  bound : ∀ {s n b}, (σ.bindings s).find? n = some b → b.value.Within p.Has
  instances : ∀ i, (σ.instanceAt i).Within p.Has

namespace Store.Supported

variable {p q : Program} {σ : Store}

theorem mono (h : σ.Supported p) (hq : p.Grows q) : σ.Supported q where
  bound hb := fun r hr => hq.has (h.bound hb r hr)
  instances i :=
    { type := hq.has (h.instances i).type
      variant := hq.has (h.instances i).variant
      fields := fun f hf => ⟨hq.has ((h.instances i).fields f hf).1,
        fun r hr => hq.has (((h.instances i).fields f hf).2 r hr)⟩ }

theorem define (h : σ.Supported p) {s : ScopeId} {n : Name} {b : Binding}
    (hb : b.value.Within p.Has) : (σ.define s n b).Supported p where
  bound := forall_define h.bound hb
  instances := h.instances

theorem copyScope (h : σ.Supported p) (s : ScopeId) : (σ.copyScope s).2.Supported p where
  bound := forall_copyScope h.bound
  instances := h.instances

theorem setField (h : σ.Supported p) {i : InstanceId} {n : Name} {t : Thunk}
    (hn : p.Has (.name n)) (ht : t.Within p.Has) : (σ.setField i n t).Supported p where
  bound := h.bound
  instances j := by
    rw [instanceAt_setField]
    split
    · refine ⟨(h.instances i).type, (h.instances i).variant, fun f hf => ?_⟩
      rcases Instance.mem_replaceField hf with hf | rfl
      · exact (h.instances i).fields f hf
      · exact ⟨hn, ht⟩
    · exact h.instances j

theorem addInstance (h : σ.Supported p) {d : Instance} (hd : d.Within p.Has) :
    (σ.addInstance d).2.Supported p where
  bound := h.bound
  instances i := by
    rw [instanceAt_addInstance]
    split
    · exact hd
    · exact h.instances i

end Store.Supported

/-- What the declared types refer to is in the program. -/
def Types.Supported (p : Program) (τ : Types) : Prop := ∀ t ∈ τ.entries, ∀ r ∈ t.refs, p.Has r

namespace Types.Supported

variable {p : Program} {τ τ' : Types}

theorem variant (h : τ.Supported p) {t v : Name} {w : Variant}
    (hw : τ.variant p.names t v = .ok w) : ∀ r ∈ w.refs, p.Has r := by
  obtain ⟨u, hu, hv⟩ := variant_eq_ok hw
  have hmem : w ∈ u.variants := List.mem_of_find?_eq_some hv
  intro r hr
  refine h u (List.mem_of_find?_eq_some hu) r (List.mem_cons_of_mem _ ?_)
  exact List.mem_flatMap.2 ⟨w, hmem, hr⟩

theorem declare (h : τ.Supported p) {t : DataType} (ht : ∀ r ∈ t.refs, p.Has r)
    (hτ : τ.declare p.names t = .ok τ') : τ'.Supported p := by
  intro u hu
  rcases mem_of_declare hτ hu with hu | rfl
  · exact h u hu
  · exact ht

end Types.Supported

/-! ### The invariant -/

/-- A fault of the language, too little reach, or a list that there is no room for. -/
def Stop.Regular : Stop → Prop
  | .fault _ => True
  | .outOfReach => True
  | .overCapacity => True
  | _ => False

theorem Stop.Regular.mapFault {e : Stop} (h : e.Regular) (f : Fault → Fault) :
    (e.mapFault f).Regular := by
  cases e with
  | fault x => trivial
  | _ => exact h

theorem Program.WellFormed.children_has {p : Program} (hp : p.WellFormed) {n : NodeId} {a : Node}
    (hn : n.index < p.size) (ha : p.node? n = some a) :
    ∀ m ∈ a.kind.children, p.Has (.node m) :=
  fun m hm => Nat.lt_trans (hp.children ha m hm) hn

/-- References are good.  Nothing is said about the ways to stop. -/
def support (p : Program) (hp : p.WellFormed) : Invariant p where
  refs := p.Has
  own _ := True
  state σ τ := σ.Supported p ∧ τ.Supported p
  own_scope _ := trivial
  find h _ _ hb := h.1.bound hb
  assign h _ _ hb _ := ⟨h.1.define hb, h.2⟩
  define h _ _ hv := ⟨h.1.define hv, h.2⟩
  copy h _ := ⟨trivial, h.1.copyScope _, h.2⟩
  add_list _ h := ⟨⟨h.1.bound, h.1.instances⟩, h.2⟩
  instance_at h _ := h.1.instances _
  set_field h _ hn hv := ⟨h.1.setField hn (Likeness.within_forced.2 hv), h.2⟩
  add_instance h hd _ _ := ⟨trivial, h.1.addInstance hd, h.2⟩
  variant h hw := h.2.variant hw
  declare h ht hτ := ⟨h.1, h.2.declare ht hτ⟩
  node hn ha := ⟨hp.children_has hn ha, hp.refs ha⟩
  suspended hn := hn

/-- References are good, and evaluation stops in a regular way. -/
def validity (p : Program) (hp : p.WellFormed) (limit : Nat) : Invariant p :=
  { support p hp with
    calls := fun cs => cs.limit = limit
    stop := fun _ e => e.Regular
    push := fun hcs hd => (CallStack.depth_of_push hd).2.2.trans hcs
    no_node := fun _ hn hnone => absurd hnone (Program.node?_ne_none hn)
    no_number := fun _ ha hnone => absurd hnone (Program.number?_ne_none ha)
    raise := fun _ _ => trivial
    reach := fun _ => trivial
    capacity := fun _ => trivial
    place := fun _ he => he.mapFault _
    leave := fun _ he => he.mapFault _
    refuse := fun _ => trivial }

/-! ### Enough fuel -/

section

variable {p : Program} {hp : p.WellFormed} {limit reach fuel : Nat}

/-- What the fuel is measured by, from a call to a body. -/
theorem fuel_of_push {cs d : CallStack} {f : Frame} (h : cs.push f = .ok d) (hcs : cs.limit = limit)
    {size i j : Nat} (hf : (limit - cs.depth) * size + i < fuel + 1) (hj : j < size) :
    (limit - d.depth) * size + j < fuel := by
  obtain ⟨hlt, hdepth, -⟩ := CallStack.depth_of_push h
  have hsucc : limit - cs.depth = (limit - d.depth) + 1 := by omega
  rw [hsucc, Nat.succ_mul] at hf
  omega

/-- With enough fuel for the node and the calls that may still be entered, an
evaluation is valid if those of suspended nodes are. -/
theorem evalWith_valid {resume : NodeId → Eval Value}
    (hresume : ∀ {n s d}, n.index < p.size → d.limit = limit →
      (validity p hp limit).simulation.Agree ⟨s, d⟩ ⟨s, d⟩
        (validity p hp limit).simulation.OnValue (resume n) (resume n))
    {cs : CallStack} {s : ScopeId} {n : NodeId} (hcs : cs.limit = limit) (hn : n.index < p.size)
    (hf : (limit - cs.depth) * p.size + n.index < fuel) :
    (validity p hp limit).simulation.Agree ⟨s, cs⟩ ⟨s, cs⟩
      (validity p hp limit).simulation.OnValue (evalWith p reach resume fuel n)
      (evalWith p reach resume fuel n) := by
  induction fuel generalizing cs s n with
  | zero => exact absurd hf (Nat.not_lt_zero _)
  | succ fuel ih =>
    -- the parts of a node stand before it, the body of a function anywhere
    have hc : (validity p hp limit).simulation.Contexts ⟨s, cs⟩ ⟨s, cs⟩
        (fun a b => a = b ∧ a.index < n.index)
        ⟨p, reach, evalWith p reach resume fuel, resume⟩
        ⟨p, reach, evalWith p reach resume fuel, resume⟩ :=
      { left := rfl
        right := rfl
        reach := .inl rfl
        scope := ⟨rfl, trivial⟩
        calls := ⟨rfl, hcs⟩
        node := by
          rintro a _ ⟨rfl, ha⟩
          exact Invariant.onNode (Nat.lt_trans ha hn) fun b hb =>
            hp.children_has (Nat.lt_trans ha hn) hb
        number := by
          rintro a _ ⟨rfl, ha⟩
          exact Invariant.onNumber ha
        eval := by
          rintro a _ ⟨rfl, ha⟩
          exact ih hcs (Nat.lt_trans ha hn) (by omega)
        body := by
          rintro a _ t _ f f' d _ ⟨rfl, ha⟩ ⟨rfl, -⟩ hpush - ⟨rfl, hd⟩
          exact ih hd ha (fuel_of_push hpush hcs hf ha)
        resume := by
          rintro a _ t _ d _ ⟨rfl, ha⟩ ⟨rfl, -⟩ ⟨rfl, hd⟩
          exact hresume ha hd }
    exact Simulation.evalNode_agree hc (Invariant.onNode hn fun a ha => hp.children ha)

theorem fuel_of_le {d i size : Nat} (h : (limit + 1) * size ≤ fuel) (hi : i < size) :
    (limit - d) * size + i < fuel := by
  have hle : (limit - d) * size ≤ limit * size := Nat.mul_le_mul_right _ (Nat.sub_le _ _)
  rw [Nat.succ_mul] at h
  omega

/-- The induction is on reach: each suspended node has all the fuel again. -/
theorem eval_valid (hfuel : (limit + 1) * p.size ≤ fuel) {cs : CallStack} {s : ScopeId}
    {n : NodeId} (hcs : cs.limit = limit) (hn : n.index < p.size) :
    (validity p hp limit).simulation.Agree ⟨s, cs⟩ ⟨s, cs⟩
      (validity p hp limit).simulation.OnValue (eval p fuel reach n) (eval p fuel reach n) := by
  induction reach generalizing cs s n with
  | zero => exact fun _ _ hm => .error ⟨rfl, trivial⟩ hm
  | succ reach ih => exact evalWith_valid (fun hn hd => ih hd hn) hcs hn (fuel_of_le hfuel hn)

/-- The context of a run that has fuel for all calls. -/
theorem context_valid (hfuel : (limit + 1) * p.size ≤ fuel) {k : Control}
    (hk : k.calls.limit = limit) :
    (validity p hp limit).simulation.Contexts k k (validity p hp limit).simulation.node
      (p.context fuel reach fuel) (p.context fuel reach fuel) where
  left := rfl
  right := rfl
  reach := .inl rfl
  scope := ⟨rfl, trivial⟩
  calls := ⟨rfl, hk⟩
  node := by
    rintro a _ ⟨rfl, ha⟩
    exact Invariant.onNode ha fun b hb => hp.children_has ha hb
  number := by
    rintro a _ ⟨rfl, ha⟩
    exact Invariant.onNumber ha
  eval := by
    rintro a _ ⟨rfl, ha⟩
    exact evalWith_valid (fun hn hd => eval_valid hfuel hd hn) hk ha (fuel_of_le hfuel ha)
  body := by
    rintro a _ t _ f f' d _ ⟨rfl, ha⟩ ⟨rfl, -⟩ - - ⟨rfl, hd⟩
    exact evalWith_valid (fun hn hd => eval_valid hfuel hd hn) hd ha (fuel_of_le hfuel ha)
  resume := by
    rintro a _ t _ d _ ⟨rfl, ha⟩ ⟨rfl, -⟩ ⟨rfl, hd⟩
    exact eval_valid hfuel hd ha

end

/-! ### Sessions -/

namespace Session

/-- The program is well formed, and the store and the declared types refer to what it
has. -/
structure Valid (s : Session) : Prop where
  program : s.program.WellFormed
  store : s.store.Supported s.program
  types : s.types.Supported s.program

variable {s : Session}

theorem Valid.contexts (h : s.Valid) (reach : Nat) (sink : Sink) :
    (validity s.program h.program s.limit).simulation.Contexts (s.machine sink).control
      (s.machine sink).control (validity s.program h.program s.limit).simulation.node
      (s.context reach) (s.context reach) :=
  context_valid (Nat.le_refl _) rfl

theorem Valid.run_keeps (h : s.Valid) (reach : Nat) (sink : Sink) {roots : List NodeId}
    (hr : ∀ r ∈ roots, r.index < s.program.size) :
    (validity s.program h.program s.limit).Keeps (·.Within s.program.Has) (s.machine sink)
      (LazyExpr.run (s.context reach) roots (s.machine sink)) :=
  Invariant.run_keeps (h.contexts reach sink) (fun r hmem => ⟨rfl, hr r hmem⟩) ⟨h.store, h.types⟩

/-- A step that keeps the references good leaves a valid session behind. -/
theorem Valid.perform (h : s.Valid) {α : Type} {P : α → Prop} {sink : Sink} {x : Eval α}
    (hx : (validity s.program h.program s.limit).Keeps P (s.machine sink) (x (s.machine sink))) :
    (s.perform sink x).2.Valid := by
  rw [perform_snd]
  exact ⟨h.program, hx.state_after.1, hx.state_after.2⟩

theorem valid_withBindings {p : Program} {bs : Bindings} (limit : Nat) (hp : p.WellFormed)
    (hbs : ∀ n b, bs.find? n = some b → b.value.Within p.Has) :
    (withBindings p bs limit).Valid := by
  refine ⟨hp, ⟨fun {s n b} hb => ?_, fun i => ?_⟩, fun _ ht => nomatch ht⟩
  · obtain ⟨i⟩ := s
    cases i with
    | zero => exact hbs n b hb
    | succ i => cases hb
  · -- there are no instances yet
    exact ⟨hp.empty, hp.empty, fun _ hf => nomatch hf⟩

theorem valid_withPrelude (limit : Nat) : (withPrelude limit).Valid := by
  have h := Prelude.install_extends Program.wellFormed_empty
  unfold withPrelude
  generalize Prelude.install Program.empty = r at h
  exact valid_withBindings limit h.1.wellFormed h.2

/-- A session stays valid while its program grows. -/
theorem Valid.grow (h : s.Valid) {q : Program} (hq : s.program.Extends q) :
    Valid { s with program := q } where
  program := hq.wellFormed
  store := h.store.mono hq.toGrows
  types t ht r hr := hq.has (h.types t ht r hr)

theorem extends_addAll (h : s.program.WellFormed) (es : List Expr) :
    s.program.Extends (s.addAll es).2.program ∧ ∀ roots, (s.addAll es).1 = .ok roots →
      ∀ r ∈ roots, r.index < (s.addAll es).2.program.size := by
  have hb := Expr.sound_buildAll h es
  unfold Build.Sound at hb
  unfold Session.addAll
  generalize Expr.buildAll es s.program = r at hb
  cases hb with
  | ok hq hids =>
    refine ⟨hq, ?_⟩
    rintro _ ⟨⟩
    exact hids
  | error hq => exact ⟨hq, fun _ he => nomatch he⟩

theorem Valid.addAll (h : s.Valid) (es : List Expr) :
    (s.addAll es).2.Valid ∧ ∀ roots, (s.addAll es).1 = .ok roots →
      ∀ r ∈ roots, r.index < (s.addAll es).2.program.size := by
  obtain ⟨hq, hids⟩ := extends_addAll h.program es
  refine ⟨?_, hids⟩
  rw [congrArg Prod.snd (s.addAll_of_program_eq rfl es)]
  exact h.grow hq

theorem Valid.run (h : s.Valid) (reach : Nat) (sink : Sink) {roots : List NodeId}
    (hr : ∀ r ∈ roots, r.index < s.program.size) : (s.run reach sink roots).2.Valid :=
  h.perform (h.run_keeps reach sink hr)

/-- A session that starts with the prelude stays valid. -/
theorem Reachable.valid {limit : Nat} (h : (withPrelude limit).Reachable s) : s.Valid := by
  induction h with
  | start => exact valid_withPrelude limit
  | add es _ ih => exact (ih.addAll es).1
  | run reach sink _ hr ih => exact ih.run reach sink hr
  | @display s reach sink roots v reach' _ hr hv ih =>
    have hrun := ih.run reach sink hr
    -- the value that is shown refers to what the program has, since a run gave it
    have hwithin : v.Within s.program.Has := by
      have hk := ih.run_keeps reach sink hr
      unfold Session.run at hv
      rw [perform_result] at hv
      generalize LazyExpr.run (s.context reach) roots (s.machine sink) = r at hk hv
      cases hk with
      | ok ha _ _ =>
        cases hv
        exact ha
      | error _ _ _ => cases hv
    have hprogram : (s.run reach sink roots).2.program = s.program := by
      unfold Session.run
      rw [perform_snd]
    refine hrun.perform (P := fun _ => True) ?_
    refine Invariant.display_keeps (hrun.contexts reach' _) ?_ ⟨hrun.store, hrun.types⟩
    show v.Within (s.run reach sink roots).2.program.Has
    rw [hprogram]
    exact hwithin

end Session

end LazyExpr
