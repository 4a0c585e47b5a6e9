/-
LazyExpr/Proofs/Call.lean

How a call gets to its body.

A call looks at what is called, copies the caller's table, checks the number of
arguments, and evaluates them in the caller's scope while it binds them in the
copy.  `Context.Enters` says that all of this has gone well, and names the
machines on the way; from there the call is the evaluation of the body in the
copy (`call_of_enters`).
-/
import LazyExpr.Proofs.Invariant

namespace LazyExpr

/-- What a step inside a call does to the store, it does under some active calls,
or it is not done at all. -/
theorem Eval.store_inFrame {α : Type} (names : Names) (frame : Frame) (x : Eval α) (m : Machine) :
    ((Eval.inFrame names frame x).after m).store = m.store ∨
      ∃ calls, ((Eval.inFrame names frame x).after m).store =
        (x.after { m with calls }).store := by
  unfold Eval.after Eval.inFrame
  rcases m.calls.push frame with cause | calls
  · exact .inl rfl
  · refine .inr ⟨calls, ?_⟩
    dsimp only
    rcases x { m with calls } with ⟨a, m'⟩ | ⟨e, m'⟩ <;>
    · dsimp only
      rw [popFrame_bind_apply]
      cases m'.calls.isEmpty <;> rfl

/-- A step inside a call succeeds if it does under the active calls with the new one. -/
theorem Eval.exists_of_inFrame {α : Type} {names : Names} {frame : Frame} {x : Eval α} {a : α}
    {m m' : Machine} (h : Eval.inFrame names frame x m = .ok a m') :
    ∃ calls done, m.calls.push frame = .ok calls ∧ x { m with calls } = .ok a done ∧
      m' = { done with calls := done.calls.pop } := by
  unfold Eval.inFrame at h
  rcases hpush : m.calls.push frame with cause | calls
  · simp only [hpush] at h
    cases h
  · rcases hx : x { m with calls } with ⟨b, done⟩ | ⟨e, done⟩
    · simp only [hpush, hx, popFrame_bind_apply] at h
      split at h
      · cases h
      · cases h
        exact ⟨calls, done, rfl, hx, rfl⟩
    · simp only [hpush, hx, popFrame_bind_apply] at h
      split at h <;> cases h

/-- A call from `m` gets to the body of `f`.  The machine is `caller` when the
caller's table is copied, and `inside` when the arguments are bound in the copy
`scope`. -/
structure Context.Enters (c : Context) (id : NodeId) (args : List NodeId) (m : Machine)
    (f : Function) (caller : Machine) (scope : ScopeId) (inside : Machine) : Prop where
  called : ∃ a, c.program.node? id = some a ∧ c.callee id a.kind m = .ok (.function f) caller
  arity : args.length = f.arity
  bound : ∃ m₁, Context.callScope f caller = .ok scope m₁ ∧
    c.bindArguments scope (f.params.zip args) m₁ = .ok () inside

namespace Context

variable {c : Context} {id : NodeId} {args : List NodeId} {m caller inside : Machine}
variable {f : Function} {scope : ScopeId}

theorem evalNode_apply {a : Node} (h : c.program.node? id = some a) :
    c.evalNode id m = Eval.locate a.span (c.evalKind a.span a.kind) m := by
  unfold evalNode Context.node
  rw [h]
  rfl

/-- A node gives what its kind gives, with one step of fuel less. -/
theorem eval_of_evalKind {p : Program} {fuel reach rest : Nat} {a : Node} {v : Value} {m' : Machine}
    (hnode : p.node? id = some a)
    (h : (p.context fuel reach rest).evalKind a.span a.kind m = .ok v m') :
    (p.context fuel reach (rest + 1)).eval id m = .ok v m' := by
  show (p.context fuel reach rest).evalNode id m = _
  rw [evalNode_apply hnode, Eval.locate, h]

/-- From its body on, a call is the evaluation of the body. -/
theorem call_of_enters (h : c.Enters id args m f caller scope inside) (span : Span) :
    c.call span id args m =
      Eval.inFrame c.program.names ⟨f.name, some span⟩ (c.body f scope) inside := by
  obtain ⟨a, hnode, hcallee⟩ := h.called
  obtain ⟨m₁, hscope, hargs⟩ := h.bound
  have hpresent : c.node id m = .ok a m := by
    rw [Context.node, hnode]
    rfl
  unfold Context.call
  simp only [bind, EStateM.bind, hpresent, hcallee, hscope, if_pos h.arity, hargs]

/-- A call that succeeds has got to a body. -/
theorem enters_of_call {span : Span} {v : Value} {m' : Machine}
    (h : c.call span id args m = .ok v m') :
    ∃ f caller scope inside, c.Enters id args m f caller scope inside ∧
      Eval.inFrame c.program.names ⟨f.name, some span⟩ (c.body f scope) inside = .ok v m' := by
  unfold call at h
  obtain ⟨a, _, hnode, h⟩ := Eval.bind_eq_ok.1 h
  obtain ⟨ha, rfl⟩ := Eval.present_eq_ok.1 hnode
  obtain ⟨callee, caller, hcallee, h⟩ := Eval.bind_eq_ok.1 h
  cases callee with
  | function f =>
    obtain ⟨scope, m₁, hscope, h⟩ := Eval.bind_eq_ok.1 h
    split at h
    · next harity =>
      obtain ⟨_, inside, hbound, h⟩ := Eval.bind_eq_ok.1 h
      exact ⟨f, caller, scope, inside, ⟨⟨a, ha, hcallee⟩, harity, m₁, hscope, hbound⟩, h⟩
    · cases h
  | _ => cases h

/-- The table of a call starts with the bindings of its caller's. -/
theorem find_callScope {m₁ : Machine} (h : Context.callScope f m = .ok scope m₁) {n : Name}
    {b : Binding} (hb : (m.store.bindings m.scope).find? n = some b) :
    (m₁.store.bindings scope).find? n = some b := by
  have hcopy : ((m.store.copyScope m.scope).2.bindings (m.store.copyScope m.scope).1).find? n
      = some b := by
    rw [Store.bindings_copyScope, if_pos rfl]
    exact hb
  rw [Context.callScope_apply] at h
  cases h
  dsimp only
  split
  · next hfree =>
    -- the own name is only defined where it is free, so it is not `n`
    have hne : n ≠ f.name := by
      rintro rfl
      simp [Bindings.contains, hb] at hfree
    rw [Store.find?_define, if_neg (fun e => hne e.2)]
    exact hcopy
  · exact hcopy

end Context

end LazyExpr
