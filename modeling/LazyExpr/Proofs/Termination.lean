/-
LazyExpr/Proofs/Termination.lean

When a run ends.

The limit on active calls bounds the nesting of node evaluations (see `Validity`),
but not the nesting of suspended ones, nor the depth of the walks that compare and
show values.  Reach bounds these.  It is no part of the language: a run ends if some
reach suffices for it, and then every larger one gives the same outcome and leaves
the same session behind (`Session.run_of_le`).  So in a session that started with
the prelude there are three cases only.  A run ends, with a value or a fault, or it
exceeds every reach, or it stops because there is no room for a list that an operator
is to build.

The other cases exist.  Two instances that hold themselves in their only field can
be compared without end, though no call is active: `Value.equal_loops` is the walk,
and `Session.run_comparison_of_loops` the run.  And a text can be repeated too often.
-/
import LazyExpr.Proofs.Call
import LazyExpr.Proofs.Validity

namespace LazyExpr

/-! ### More reach -/

/-- There is no value, for this reason. -/
def Outcome.StopsWith {α : Type} (o : Outcome α) (e : Stop) : Prop := o.result = .error e

instance {α : Type} (o : Outcome α) (e : Stop) : Decidable (o.StopsWith e) :=
  match h : o.result with
  | .error e' => decidable_of_iff (e' = e) (by rw [Outcome.StopsWith, h]; simp)
  | .ok a => isFalse (by rw [Outcome.StopsWith, h]; simp)

/-- There was too little reach. -/
abbrev Outcome.Exceeds {α : Type} (o : Outcome α) : Prop := o.StopsWith .outOfReach

/-- There was no room for a list. -/
abbrev Outcome.OverCapacity {α : Type} (o : Outcome α) : Prop := o.StopsWith .overCapacity

/-- Two evaluations that are equal unless the left one runs out of reach. -/
def moreReach (p : Program) : Simulation p p :=
  (anyStore p).toInvariant.excusing (· = .outOfReach) fun f _ h => Stop.mapFault_outOfReach f h

namespace Session

/-- More reach changes nothing, unless there was too little. -/
theorem run_of_le (s : Session) {reach reach' : Nat} (hle : reach ≤ reach') (sink : Sink)
    (roots : List NodeId) :
    (s.run reach sink roots).1.Exceeds ∨
      s.run reach' sink roots = s.run reach sink roots := by
  have hc : (moreReach s.program).Contexts (s.machine sink).control (s.machine sink).control
      (moreReach s.program).node (s.context reach) (s.context reach') :=
    Simulation.context_agree (Invariant.programs fun _ => trivial) (.inl rfl) (.inr ⟨hle, rfl⟩)
      (.inl rfl) ⟨rfl, trivial⟩ ⟨rfl, trivial⟩
  have hroots : List.Forall₂ (moreReach s.program).node roots roots :=
    List.forall₂_same.2 fun _ _ => ⟨rfl, trivial⟩
  unfold Outcome.Exceeds Outcome.StopsWith Session.run perform
  rcases Invariant.eq_or_excused (Simulation.run_agree hc hroots)
    (fun hv => (Likeness.onValue_within.1 hv).1) trivial trivial with ⟨e, m, he, rfl⟩ | heq
  · rw [he]
    exact .inl rfl
  · rw [heq]
    exact .inr rfl

end Session

/-! ### Ends of runs -/

/-- The result is a value or a fault of the language. -/
def Outcome.Settled {α : Type} (o : Outcome α) : Prop :=
  (∃ a, o.result = .ok a) ∨ ∃ f, o.result = .error (.fault f)

theorem Outcome.Settled.not_stopsWith {α : Type} {o : Outcome α} (h : o.Settled) {e : Stop}
    (he : ∀ f, e ≠ .fault f) : ¬ o.StopsWith e := by
  unfold Outcome.StopsWith
  rcases h with ⟨a, ha⟩ | ⟨f, hf⟩
  · rw [ha]
    simp
  · rw [hf]
    simpa using (he f).symm

theorem Outcome.Settled.not_exceeds {α : Type} {o : Outcome α} (h : o.Settled) : ¬ o.Exceeds :=
  h.not_stopsWith fun _ => by simp

theorem Outcome.Settled.not_overCapacity {α : Type} {o : Outcome α} (h : o.Settled) :
    ¬ o.OverCapacity :=
  h.not_stopsWith fun _ => by simp

namespace Session

/-- From some reach on a run gives one outcome and leaves one session behind. -/
def Gives (s : Session) (sink : Sink) (roots : List NodeId) (o : Outcome Value) (t : Session) :
    Prop :=
  ∃ bound, ∀ reach, bound ≤ reach → s.run reach sink roots = (o, t)

/-- A run ends: it gives a value or a fault. -/
def Ends (s : Session) (sink : Sink) (roots : List NodeId) (o : Outcome Value) (t : Session) :
    Prop :=
  o.Settled ∧ s.Gives sink roots o t

variable {s : Session} {roots : List NodeId}

/-- A reach that is not exceeded shows what the run gives. -/
theorem gives_of_not_exceeds {reach : Nat} {sink : Sink}
    (h : ¬ (s.run reach sink roots).1.Exceeds) :
    s.Gives sink roots (s.run reach sink roots).1 (s.run reach sink roots).2 :=
  ⟨reach, fun _ hle => (s.run_of_le hle sink roots).resolve_left h⟩

/-- Neither fuel nor references nor calls fail in a valid session. -/
theorem Valid.settled (h : s.Valid) (hr : ∀ r ∈ roots, r.index < s.program.size) (reach : Nat)
    (sink : Sink) :
    (s.run reach sink roots).1.Settled ∨ (s.run reach sink roots).1.OverCapacity ∨
      (s.run reach sink roots).1.Exceeds := by
  have hk := h.run_keeps reach sink hr
  unfold Outcome.Settled Outcome.OverCapacity Outcome.Exceeds Outcome.StopsWith Session.run
  rw [perform_result]
  generalize LazyExpr.run (s.context reach) roots (s.machine sink) = x at hk
  cases hk with
  | ok _ _ _ => exact .inl (.inl ⟨_, rfl⟩)
  | @error e _ he _ _ =>
    cases e with
    | fault f => exact .inl (.inr ⟨f, rfl⟩)
    | overCapacity => exact .inr (.inl rfl)
    | outOfReach => exact .inr (.inr rfl)
    | outOfFuel => exact he.elim
    | dangling => exact he.elim
    | noFrame => exact he.elim

theorem Valid.ends_iff (h : s.Valid) (hr : ∀ r ∈ roots, r.index < s.program.size) (sink : Sink) :
    (∃ o t, s.Ends sink roots o t) ↔ ∃ reach, ¬ (s.run reach sink roots).1.Exceeds ∧
      ¬ (s.run reach sink roots).1.OverCapacity := by
  constructor
  · rintro ⟨o, t, ho, bound, hbound⟩
    refine ⟨bound, ?_⟩
    rw [hbound bound (Nat.le_refl _)]
    exact ⟨ho.not_exceeds, ho.not_overCapacity⟩
  · rintro ⟨reach, hne, hroom⟩
    have hsettled := ((h.settled hr reach sink).resolve_right (not_or_intro hroom hne))
    exact ⟨_, _, hsettled, gives_of_not_exceeds hne⟩

/-- Where there is no room for a list, there is none with more reach either. -/
theorem gives_overCapacity_iff {sink : Sink} :
    (∃ o t, o.OverCapacity ∧ s.Gives sink roots o t) ↔
      ∃ reach, (s.run reach sink roots).1.OverCapacity := by
  constructor
  · rintro ⟨o, t, ho, bound, hbound⟩
    refine ⟨bound, ?_⟩
    rw [hbound bound (Nat.le_refl _)]
    exact ho
  · rintro ⟨reach, hover⟩
    refine ⟨_, _, hover, gives_of_not_exceeds fun hexceeds => ?_⟩
    cases hover.symm.trans hexceeds

end Session

/-! ### A walk without end -/

/-- An instance with one field, which holds the instance itself. -/
def Store.Loops (σ : Store) (type variant label : Name) (i : InstanceId) : Prop :=
  σ.instanceAt i = ⟨type, variant, [(label, .forced (.data i))]⟩

instance (σ : Store) (type variant label : Name) (i : InstanceId) :
    Decidable (σ.Loops type variant label i) := inferInstanceAs (Decidable (_ = _))

/-- The comparison of two loops comes back to itself one level down. -/
theorem Value.equal_loops {force : Thunk → Eval Value} (hforce : ∀ v, force (.forced v) = pure v)
    {m : Machine} {type variant label : Name} {i j : InstanceId} (hne : i ≠ j)
    (hi : m.store.Loops type variant label i) (hj : m.store.Loops type variant label j)
    (depth : Nat) :
    Value.equal force depth (.data i) (.data j) m = .error .outOfReach m := by
  induction depth with
  | zero =>
    rw [Value.equal, if_neg hne]
    rfl
  | succ depth ih =>
    rw [Value.equal, if_neg hne]
    have hget : ∀ i, Eval.instanceAt i m = .ok (m.store.instanceAt i) m := fun _ => rfl
    refine (Eval.bind_of_ok (hget i)).trans ((Eval.bind_of_ok (hget j)).trans ?_)
    rw [hi, hj]
    -- type, variant and label are the same, so the fields decide
    rw [Equality.instances, if_pos ⟨rfl, rfl, rfl⟩]
    show Equality.fieldPairs force (Value.equal force depth)
      [((label, .forced (.data i)), (label, .forced (.data j)))] m = _
    rw [Equality.fieldPairs, if_pos rfl, hforce, hforce, pure_bind, pure_bind]
    exact Eval.bind_of_error ih

namespace Context

variable {c : Context} {m : Machine} {n : NodeId} {span : Span}

theorem evalNode_list {items : List NodeId} (h : c.program.node? n = some ⟨.list items, span⟩) :
    c.evalNode n m = .ok (.list ⟨m.store.lists⟩ (items.map (.deferred · m.scope)))
      { m with store := { m.store with lists := m.store.lists + 1 } } := by
  rw [evalNode_apply h]
  rfl

theorem evalNode_ident {name : Name} {b : Binding}
    (h : c.program.node? n = some ⟨.ident name, span⟩)
    (hb : (m.store.bindings m.scope).find? name = some b) : c.evalNode n m = .ok b.value m := by
  have hlookup : Eval.lookup? name m = .ok (some b) m := by
    show EStateM.Result.ok ((m.store.bindings m.scope).find? name) m = _
    rw [hb]
  have hident : c.ident name m = .ok b.value m := Eval.bind_of_ok hlookup
  rw [evalNode_apply h]
  show Eval.locate span (c.ident name) m = _
  rw [Eval.locate, hident]

end Context

/-- A suspended name has the value that it has in its own scope. -/
theorem Program.force_ident {p : Program} {fuel reach rest : Nat} {m : Machine} {x : NodeId}
    {span : Span} {name : Name} {b : Binding} {scope : ScopeId}
    (hx : p.node? x = some ⟨.ident name, span⟩)
    (hb : (m.store.bindings scope).find? name = some b) :
    (p.context (fuel + 1) (reach + 1) rest).force (.deferred x scope) m = .ok b.value m := by
  have h : eval p (fuel + 1) (reach + 1) x { m with scope } = .ok b.value { m with scope } :=
    Context.evalNode_ident hx hb
  show Eval.inScope scope (eval p (fuel + 1) (reach + 1) x) m = _
  rw [Eval.inScope, h]

/-- A program that compares a list of one loop with a list of another exceeds every
reach. -/
theorem Session.run_comparison_of_loops {s : Session} {root l r x y : NodeId} {span : Span}
    {n n' type variant label : Name} {i j : InstanceId}
    (hroot : s.program.node? root = some ⟨.binary .eq l r, span⟩)
    (hl : s.program.node? l = some ⟨.list [x], span⟩)
    (hr : s.program.node? r = some ⟨.list [y], span⟩)
    (hx : s.program.node? x = some ⟨.ident n, span⟩)
    (hy : s.program.node? y = some ⟨.ident n', span⟩)
    (hn : (s.store.bindings s.globals).find? n = some ⟨.data i, .mutable⟩)
    (hn' : (s.store.bindings s.globals).find? n' = some ⟨.data j, .mutable⟩) (hne : i ≠ j)
    (hi : s.store.Loops type variant label i) (hj : s.store.Loops type variant label j)
    (hfuel : 2 ≤ s.fuel) (reach : Nat) (sink : Sink) :
    (s.run reach sink [root]).1.Exceeds := by
  obtain ⟨fuel, hf⟩ : ∃ fuel, s.fuel = fuel + 2 := ⟨s.fuel - 2, by omega⟩
  -- the machine after both lists are made, before anything is forced
  let m : Machine := { s.machine sink with store := { s.store with lists := s.store.lists + 2 } }
  let c : Context := s.program.context (fuel + 2) reach (fuel + 1)
  have hitems : Equality.items c.force (Value.equal c.force reach) [.deferred x s.globals]
      [.deferred y s.globals] m = .error .outOfReach m := by
    show (do
      let a ← c.force (.deferred x s.globals)
      let b ← c.force (.deferred y s.globals)
      if ← Value.equal c.force reach a b then Equality.allPairs c.force (Value.equal c.force reach) []
      else return false : Eval Bool) m = _
    cases reach with
    | zero => exact Eval.bind_of_error rfl
    | succ reach =>
      refine (Eval.bind_of_ok (Program.force_ident hx hn)).trans ?_
      refine (Eval.bind_of_ok (Program.force_ident hy hn')).trans ?_
      exact Eval.bind_of_error (Value.equal_loops (fun _ => rfl) hne hi hj _)
  have hbinary : c.binary .eq l r (s.machine sink) = .error .outOfReach m := by
    refine (Eval.bind_of_ok (Context.evalNode_list hl)).trans ?_
    refine (Eval.bind_of_ok (Context.evalNode_list hr)).trans ?_
    exact Eval.bind_of_error hitems
  have heval : (s.context reach).eval root (s.machine sink) = .error .outOfReach m := by
    have hcontext : s.context reach = s.program.context (fuel + 2) reach (fuel + 2) := by
      rw [context, hf]
    rw [hcontext]
    show Context.evalNode c root (s.machine sink) = _
    rw [Context.evalNode_apply hroot]
    show Eval.locate span (c.binary .eq l r) (s.machine sink) = _
    rw [Eval.locate, hbinary]
    rfl
  have hrun : LazyExpr.run (s.context reach) [root] (s.machine sink) = .error .outOfReach m :=
    Eval.bind_of_error heval
  rw [Outcome.Exceeds, Outcome.StopsWith, Session.run, perform_result, hrun]

/-! ### When runs end -/

/-- Whatever was done in a session that started with the prelude, under any limit on
active calls: with any reach, a program that is run next gives a value, or a fault,
or there is no room for a list, or it exceeds the reach, so recursion through calls
never goes on without end.  It ends exactly if there is a reach that it does not
exceed, and with which there is room; and if there is none for a list, more reach
makes no difference. -/
theorem run_ends_iff_some_reach_suffices {limit : Nat} {s : Session} {es : List Expr}
    {roots : List NodeId} (h : (Session.withPrelude limit).Reachable s)
    (hroots : (s.addAll es).1 = .ok roots) (sink : Sink) :
    (∀ reach, ((s.addAll es).2.run reach sink roots).1.Settled ∨
      ((s.addAll es).2.run reach sink roots).1.OverCapacity ∨
      ((s.addAll es).2.run reach sink roots).1.Exceeds) ∧
    ((∃ o t, (s.addAll es).2.Ends sink roots o t) ↔
      ∃ reach, ¬ ((s.addAll es).2.run reach sink roots).1.Exceeds ∧
        ¬ ((s.addAll es).2.run reach sink roots).1.OverCapacity) ∧
    ((∃ o t, o.OverCapacity ∧ (s.addAll es).2.Gives sink roots o t) ↔
      ∃ reach, ((s.addAll es).2.run reach sink roots).1.OverCapacity) := by
  obtain ⟨hvalid, hlt⟩ := h.valid.addAll es
  have hr := hlt roots hroots
  exact ⟨fun reach => hvalid.settled hr reach sink, hvalid.ends_iff hr sink,
    Session.gives_overCapacity_iff⟩

/-- Two instances `a` and `b`, each of which comes to hold itself. -/
def loopProgram : List Expr :=
  [.declare "N" [("C", ["next"])],
    .assign .mutable "a" (.construct "N" "C" [("next", .void)]),
    .assign .mutable "b" (.construct "N" "C" [("next", .void)]),
    .fieldAssign (.ident "a") "next" (.ident "a"),
    .fieldAssign (.ident "b") "next" (.ident "b")]

/-- The comparison of `[a]` with `[b]`. -/
def loopComparison : List Expr :=
  [.binary .eq (.list [.ident "a"]) (.list [.ident "b"])]

/-- The session in which the two loops were made. -/
def Session.withLoops : Session :=
  (((withPrelude CallStack.defaultLimit).addAll loopProgram).2.run 1 .emptyBuffer
    [⟨12⟩, ⟨15⟩, ⟨18⟩, ⟨21⟩, ⟨24⟩]).2

/-- The program that makes the two loops ends; the one that compares them, run after
it, does not. -/
theorem comparison_of_loops_never_ends :
    (∃ o t, ((Session.withPrelude CallStack.defaultLimit).addAll loopProgram).2.Ends .emptyBuffer
      [⟨12⟩, ⟨15⟩, ⟨18⟩, ⟨21⟩, ⟨24⟩] o t) ∧
    (Session.withPrelude CallStack.defaultLimit).Reachable Session.withLoops ∧
    (Session.withLoops.addAll loopComparison).1 = .ok [⟨29⟩] ∧
    ¬ ∃ o t, (Session.withLoops.addAll loopComparison).2.Ends .emptyBuffer [⟨29⟩] o t := by
  have hroots : ((Session.withPrelude CallStack.defaultLimit).addAll loopProgram).1 =
      .ok [⟨12⟩, ⟨15⟩, ⟨18⟩, ⟨21⟩, ⟨24⟩] := by decide +kernel
  have hs : (Session.withPrelude CallStack.defaultLimit).Reachable Session.withLoops :=
    .run 1 .emptyBuffer (.add loopProgram .start) (by decide +kernel)
  have hcomparison : (Session.withLoops.addAll loopComparison).1 = .ok [⟨29⟩] := by decide +kernel
  refine ⟨?_, hs, hcomparison, ?_⟩
  · refine (run_ends_iff_some_reach_suffices .start hroots .emptyBuffer).2.1.2 ⟨1, ?_⟩
    decide +kernel
  · rw [(run_ends_iff_some_reach_suffices hs hcomparison .emptyBuffer).2.1]
    rintro ⟨reach, hreach, -⟩
    have hnodes : ([⟨25⟩, ⟨26⟩, ⟨27⟩, ⟨28⟩, ⟨29⟩] : List NodeId).map
        (Session.withLoops.addAll loopComparison).2.program.node? =
        [some ⟨.ident ⟨11⟩, .unlocated⟩, some ⟨.list [⟨25⟩], .unlocated⟩,
          some ⟨.ident ⟨12⟩, .unlocated⟩, some ⟨.list [⟨27⟩], .unlocated⟩,
          some ⟨.binary .eq ⟨26⟩ ⟨28⟩, .unlocated⟩] := by decide +kernel
    simp only [List.map_cons, List.map_nil, List.cons.injEq, and_true] at hnodes
    obtain ⟨hx, hl, hy, hr, hroot⟩ := hnodes
    obtain ⟨hn, hn', hi, hj⟩ :
        (Session.withLoops.store.bindings Session.withLoops.globals).find? ⟨11⟩ =
          some ⟨.data ⟨0⟩, .mutable⟩ ∧
        (Session.withLoops.store.bindings Session.withLoops.globals).find? ⟨12⟩ =
          some ⟨.data ⟨1⟩, .mutable⟩ ∧
        Session.withLoops.store.Loops ⟨8⟩ ⟨9⟩ ⟨10⟩ ⟨0⟩ ∧
        Session.withLoops.store.Loops ⟨8⟩ ⟨9⟩ ⟨10⟩ ⟨1⟩ := by decide +kernel
    have hfuel : 2 ≤ (Session.withLoops.addAll loopComparison).2.fuel := by decide +kernel
    have hne : (⟨0⟩ : InstanceId) ≠ ⟨1⟩ := by decide
    -- adding an expression leaves store and scope as they were
    rw [← Session.store_addAll _ loopComparison] at hn hn' hi hj
    rw [← Session.globals_addAll _ loopComparison] at hn hn'
    exact hreach (Session.run_comparison_of_loops hroot hl hr hx hy hn hn' hne hi hj hfuel reach
      .emptyBuffer)

end LazyExpr
