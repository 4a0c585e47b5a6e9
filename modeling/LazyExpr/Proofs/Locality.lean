/-
LazyExpr/Proofs/Locality.lean

Evaluation writes only where it can get to.

What is reached from a scope is what the links of the store lead to from there
(`Store.Points`).  The envelope of a scope is what it reaches together with what is
newer than the store at hand.  The invariant of an evaluation that starts in that
scope has two parts: links from within the envelope stay within, and outside of it
the store is what it was.  A new link comes from a value that the evaluation holds,
and so leads into the envelope.

For a call this gives more.  Its body starts in a new table, and a table is only
ever pointed to by suspended nodes.  Unless one that is suspended over the
caller's table can be reached from there, the body does not change that table.
-/
import LazyExpr.Proofs.Call
import Mathlib.Logic.Relation

namespace LazyExpr

/-! ### The envelope of a scope -/

/-- What can be got to in the store. -/
def Store.Reaches (σ : Store) : Ref → Ref → Prop := Relation.ReflTransGen σ.Points

namespace Store

variable {σ : Store} {r r' : Ref}

/-- What a scope reaches, and what is newer than the store.  Where there are no
links there is nothing to say. -/
def Envelope (σ : Store) (root : ScopeId) : Ref → Prop
  | .scope s => σ.Reaches (.scope root) (.scope s) ∨ σ.scopes.size ≤ s.index
  | .data i => σ.Reaches (.scope root) (.data i) ∨ σ.instances.size ≤ i.index
  | _ => True

theorem Envelope.of_inProgram {root : ScopeId} (h : r.InProgram) : σ.Envelope root r := by
  cases r with
  | scope s => exact h.elim
  | data i => exact h.elim
  | _ => trivial

theorem Envelope.of_reaches {root : ScopeId} (h : σ.Reaches (.scope root) r) :
    σ.Envelope root r := by
  cases r with
  | scope s => exact .inl h
  | data i => exact .inl h
  | _ => trivial

/-- What is newer than the store has no links in it. -/
theorem Envelope.reaches_of_points {root : ScopeId} (hr : σ.Envelope root r)
    (h : σ.Points r r') : σ.Reaches (.scope root) r := by
  cases h with
  | @bound s n b _ hb _ =>
    rcases hr with hr | hnew
    · exact hr
    · rw [bindings_of_size_le σ s hnew] at hb
      cases hb
  | @field i f _ hf _ =>
    rcases hr with hr | hnew
    · exact hr
    · rw [instanceAt, Array.getElem?_eq_none hnew] at hf
      cases hf

theorem Envelope.points {root : ScopeId} (hr : σ.Envelope root r) (h : σ.Points r r') :
    σ.Envelope root r' :=
  .of_reaches ((hr.reaches_of_points h).tail h)

/-! ### The invariant -/

/-- A later store differs from `σ₀` only within the envelope of a scope, and its
links do not lead out of it. -/
structure Local (σ₀ : Store) (root : ScopeId) (σ : Store) : Prop where
  scopes_le : σ₀.scopes.size ≤ σ.scopes.size
  instances_le : σ₀.instances.size ≤ σ.instances.size
  bindings_eq : ∀ s, ¬ σ₀.Envelope root (.scope s) → σ.bindings s = σ₀.bindings s
  instance_eq : ∀ i, ¬ σ₀.Envelope root (.data i) → σ.instanceAt i = σ₀.instanceAt i
  closed : ∀ {r r'}, σ₀.Envelope root r → σ.Points r r' → σ₀.Envelope root r'

theorem Local.refl (σ : Store) (root : ScopeId) : σ.Local root σ where
  scopes_le := Nat.le_refl _
  instances_le := Nat.le_refl _
  bindings_eq _ _ := rfl
  instance_eq _ _ := rfl
  closed hr h := hr.points h

variable {σ₀ : Store} {root : ScopeId}

theorem Local.define (h : σ₀.Local root σ) {s : ScopeId} (hs : σ₀.Envelope root (.scope s))
    {b : Binding} (hb : b.value.Within (σ₀.Envelope root)) (n : Name) :
    σ₀.Local root (σ.define s n b) where
  scopes_le := by simpa using h.scopes_le
  instances_le := h.instances_le
  bindings_eq t ht := by
    have hne : t ≠ s := fun e => ht (e ▸ hs)
    rw [Store.define, bindings_setBindings _ _ _ _ hne, h.bindings_eq t ht]
  instance_eq := h.instance_eq
  closed hr hp := by
    rcases points_define hp with hp | ⟨-, hr'⟩
    · exact h.closed hr hp
    · exact hb _ hr'

theorem Local.copyScope (h : σ₀.Local root σ) {s : ScopeId} (hs : σ₀.Envelope root (.scope s)) :
    σ₀.Local root (σ.copyScope s).2 where
  scopes_le := Nat.le_trans h.scopes_le (by simp)
  instances_le := h.instances_le
  bindings_eq t ht := by
    have hne : t ≠ (σ.copyScope s).1 := by
      rintro rfl
      exact ht (.inr h.scopes_le)
    rw [bindings_copyScope, if_neg hne, h.bindings_eq t ht]
  instance_eq := h.instance_eq
  closed hr hp := by
    rcases points_copyScope hp with hp | hp
    · exact h.closed hr hp
    · exact h.closed hs hp

theorem Local.setField (h : σ₀.Local root σ) {i : InstanceId} (hi : σ₀.Envelope root (.data i))
    {t : Thunk} (ht : t.Within (σ₀.Envelope root)) (n : Name) :
    σ₀.Local root (σ.setField i n t) where
  scopes_le := h.scopes_le
  instances_le := by simpa using h.instances_le
  bindings_eq := h.bindings_eq
  instance_eq j hj := by
    have hne : j ≠ i := fun e => hj (e ▸ hi)
    rw [instanceAt_setField, if_neg hne, h.instance_eq j hj]
  closed hr hp := by
    rcases points_setField hp with hp | ⟨-, hr'⟩
    · exact h.closed hr hp
    · exact ht _ hr'

theorem Local.addInstance (h : σ₀.Local root σ) {d : Instance}
    (hd : ∀ f ∈ d.fields, f.2.Within (σ₀.Envelope root)) :
    σ₀.Local root (σ.addInstance d).2 where
  scopes_le := h.scopes_le
  instances_le := Nat.le_trans h.instances_le (by simp)
  bindings_eq := h.bindings_eq
  instance_eq j hj := by
    have hne : j ≠ (σ.addInstance d).1 := by
      rintro rfl
      exact hj (.inr h.instances_le)
    rw [instanceAt_addInstance, if_neg hne, h.instance_eq j hj]
  closed hr hp := by
    rcases points_addInstance hp with hp | ⟨f, hf, hr'⟩
    · exact h.closed hr hp
    · exact hd f hf _ hr'

end Store

/-- An evaluation in a scope stays in its envelope. -/
def locality (p : Program) (σ₀ : Store) (root : ScopeId) : Invariant p where
  refs := σ₀.Envelope root
  own s := σ₀.scopes.size ≤ s.index
  state σ _ := σ₀.Local root σ
  own_scope hs := .inr hs
  find h hs _ hb := fun _ hr => h.closed hs (.bound hb hr)
  assign h hs _ hb _ := h.define hs hb _
  define h hs _ hv := h.define (.inr hs) hv _
  copy h hs := ⟨h.scopes_le, h.copyScope hs⟩
  add_list ts h := { h with closed := fun hr hp => h.closed hr (Store.points_addList hp) }
  instance_at h hi :=
    ⟨trivial, trivial, fun _ hf => ⟨trivial, fun _ hr => h.closed hi (.field hf hr)⟩⟩
  set_field h hi _ hv := h.setField hi (Likeness.within_forced.2 hv) _
  add_instance h hd _ _ := ⟨.inr h.instances_le, h.addInstance fun f hf => (hd.fields f hf).2⟩
  variant _ _ := fun _ hr => .of_inProgram (Variant.inProgram hr)
  declare h _ _ := h
  node _ _ := ⟨fun _ _ => trivial, fun _ hr => .of_inProgram (Kind.inProgram hr)⟩
  suspended _ := trivial

/-! ### What evaluation changes -/

section

variable {p : Program} {fuel reach rest : Nat} {m : Machine}

theorem local_eval (id : NodeId) :
    m.store.Local m.scope (((p.context fuel reach rest).eval id).after m).store := by
  have hm : (locality p m.store m.scope).Holds m := ⟨.inl .refl, trivial, .refl _ _⟩
  exact (Invariant.eval_keeps fuel reach rest (fun _ => trivial) (n := id) trivial hm).state_after

/-- The body of a call starts in the table of the call, wherever the call was
made. -/
theorem local_body (f : Function) (scope : ScopeId) :
    m.store.Local scope (((p.context fuel reach rest).body f scope).after m).store := by
  have hc : (locality p m.store scope).simulation.Contexts ⟨scope, m.calls⟩ ⟨scope, m.calls⟩ _
      (p.context fuel reach rest) (p.context fuel reach rest) :=
    Invariant.contexts (fun _ => trivial) (.inl .refl) trivial
  have hbody : (locality p m.store scope).simulation.Agree m.control m.control _
      ((p.context fuel reach rest).body f scope) ((p.context fuel reach rest).body f scope) :=
    Simulation.body_agree hc hc.scope ⟨rfl, trivial⟩ (hc.eval ⟨rfl, trivial⟩)
  exact (Invariant.keeps_of_agree hbody (fun _ _ => trivial) trivial (.refl _ _)).state_after

theorem scopes_le_of_bindArguments {scope : ScopeId} {args : List (Name × NodeId)} {m' : Machine}
    (h : (p.context fuel reach rest).bindArguments scope args m = .ok () m') :
    m.store.scopes.size ≤ m'.store.scopes.size := by
  induction args generalizing m with
  | nil =>
    cases h
    exact Nat.le_refl _
  | cons a more ih =>
    unfold Context.bindArguments at h
    obtain ⟨v, m₁, hv, h⟩ := Eval.bind_eq_ok.1 h
    obtain ⟨_, m₂, hdef, h⟩ := Eval.bind_eq_ok.1 h
    cases hdef
    have hle : m.store.scopes.size ≤
        (((p.context fuel reach rest).eval a.2).after m).store.scopes.size :=
      (local_eval a.2).scopes_le
    rw [Eval.after_of_ok hv] at hle
    have hrest := ih h
    rw [Store.size_define] at hrest
    exact Nat.le_trans hle hrest

/-- The table of a call is newer than its caller's. -/
theorem scope_of_enters {id : NodeId} {args : List NodeId} {f : Function}
    {caller inside : Machine} {scope : ScopeId}
    (h : (p.context fuel reach rest).Enters id args m f caller scope inside) :
    scope.index = caller.store.scopes.size ∧
      caller.store.scopes.size ≤ inside.store.scopes.size := by
  obtain ⟨m₁, hscope, hargs⟩ := h.bound
  have hle := scopes_le_of_bindArguments hargs
  rw [Context.callScope_apply] at hscope
  cases hscope
  refine ⟨rfl, Nat.le_trans ?_ hle⟩
  dsimp only
  split
  · simp
  · simp

end

/-- Evaluation changes only tables and instances that the current scope reached
when it started, or that are new; and a call, once it gets to its body, leaves the
caller's table as it is, unless something that points to that table, which only a
suspended node does, is reached from the table of the call. -/
theorem writes_stay_in_reach (p : Program) (fuel reach rest : Nat) (m : Machine) :
    (∀ (id : NodeId) (s : ScopeId), s.index < m.store.scopes.size →
      (((p.context fuel reach rest).eval id).after m).store.bindings s ≠ m.store.bindings s →
      m.store.Reaches (.scope m.scope) (.scope s)) ∧
    (∀ (id : NodeId) (i : InstanceId), i.index < m.store.instances.size →
      (((p.context fuel reach rest).eval id).after m).store.instanceAt i ≠ m.store.instanceAt i →
      m.store.Reaches (.scope m.scope) (.data i)) ∧
    ∀ (id : NodeId) (args : List NodeId) (f : Function) (caller : Machine) (scope : ScopeId)
      (inside : Machine), (p.context fuel reach rest).Enters id args m f caller scope inside →
      caller.scope.index < caller.store.scopes.size →
      (¬ ∃ r, inside.store.Reaches (.scope scope) r ∧
        inside.store.Points r (.scope caller.scope)) →
      ∀ span, (((p.context fuel reach rest).call span id args).after m).store.bindings caller.scope
        = inside.store.bindings caller.scope := by
  refine ⟨?_, ?_, ?_⟩
  · intro id s hs hne
    by_contra hr
    refine hne ((local_eval id).bindings_eq s ?_)
    rintro (h | h)
    · exact hr h
    · omega
  · intro id i hi hne
    by_contra hr
    refine hne ((local_eval id).instance_eq i ?_)
    rintro (h | h)
    · exact hr h
    · omega
  · intro id args f caller scope inside henter hcaller hnone span
    obtain ⟨hscope, hle⟩ := scope_of_enters henter
    -- the caller's table is not in the envelope of the call's
    have hout : ¬ inside.store.Envelope scope (.scope caller.scope) := by
      rintro (h | h)
      · rcases h.cases_tail with e | ⟨r, hr, hp⟩
        · obtain rfl : caller.scope = scope := by simpa using e
          omega
        · exact hnone ⟨r, hr, hp⟩
      · omega
    have hcall : (((p.context fuel reach rest).call span id args).after m) =
        (Eval.inFrame p.names ⟨f.name, some span⟩
          ((p.context fuel reach rest).body f scope)).after inside := by
      rw [Eval.after, Context.call_of_enters henter span]
      rfl
    rw [hcall]
    rcases Eval.store_inFrame p.names ⟨f.name, some span⟩
      ((p.context fuel reach rest).body f scope) inside with h | ⟨calls, h⟩
    · rw [h]
    · rw [h]
      exact (local_body (m := { inside with calls }) f scope).bindings_eq _ hout

/-- A program with `x`, `f` and `d` bound, where `f(y)` is `x = y` and `d` is an
instance with a field: `x = void` changes the current table, `d.n = void` the
instance that it refers to, and a call of `f` not the table of its caller. -/
theorem writes_stay_in_reach_of_call :
    let p : Program := ⟨#[⟨.void, .unlocated⟩, ⟨.ident ⟨2⟩, .unlocated⟩,
      ⟨.assign ⟨1⟩ ⟨1⟩ .mutable, .unlocated⟩, ⟨.ident ⟨3⟩, .unlocated⟩,
      ⟨.assign ⟨1⟩ ⟨0⟩ .mutable, .unlocated⟩, ⟨.ident ⟨4⟩, .unlocated⟩,
      ⟨.fieldAssign ⟨5⟩ ⟨5⟩ ⟨0⟩, .unlocated⟩], #[], .initial⟩
    let c := p.context 3 1 3
    let f : Function := ⟨⟨3⟩, [⟨2⟩], ⟨2⟩⟩
    let m : Machine := ⟨⟨#[⟨[(⟨1⟩, ⟨.bool true, .mutable⟩), (⟨3⟩, ⟨.function f, .mutable⟩),
      (⟨4⟩, ⟨.data ⟨0⟩, .mutable⟩)]⟩], #[⟨⟨6⟩, ⟨7⟩, [(⟨5⟩, .forced (.bool true))]⟩], 0⟩, .empty,
      .emptyBuffer, ⟨0⟩, .empty 1⟩
    m.store.Reaches (.scope ⟨0⟩) (.scope ⟨0⟩) ∧ m.store.Reaches (.scope ⟨0⟩) (.data ⟨0⟩) ∧
    ∃ inside, c.Enters ⟨3⟩ [⟨0⟩] m f m ⟨1⟩ inside ∧
      ((c.call .unlocated ⟨3⟩ [⟨0⟩]).after m).store.bindings ⟨0⟩ =
        inside.store.bindings ⟨0⟩ := by
  intro p c f m
  obtain ⟨htable, hinstance, hcall⟩ := writes_stay_in_reach p 3 1 3 m
  have henter : c.Enters ⟨3⟩ [⟨0⟩] m f m ⟨1⟩ _ := ⟨⟨_, rfl, rfl⟩, rfl, _, rfl, rfl⟩
  refine ⟨?_, ?_, _, henter, ?_⟩
  · refine htable ⟨4⟩ ⟨0⟩ (by decide) fun h => ?_
    have h' := congrArg (fun bs => (bs.find? ⟨1⟩).map fun b => b.value.typeName) h
    revert h'
    decide
  · refine hinstance ⟨6⟩ ⟨0⟩ (by decide) fun h => ?_
    have h' := congrArg (fun d => d.fields.map fun f => f.2.same (.forced .void)) h
    revert h'
    decide
  · refine hcall _ _ f m ⟨1⟩ _ henter (by decide) ?_ .unlocated
    -- no value in the store holds a suspended node
    rintro ⟨r, -, hp⟩
    cases hp with
    | @bound s n b _ hb hr =>
      obtain ⟨_ | _ | i⟩ := s
      · have hmem : (n, b) ∈ [_, _, _] := Bindings.mem_of_find? hb
        simp only [List.mem_cons, Prod.mk.injEq, List.not_mem_nil, or_false] at hmem
        rcases hmem with ⟨-, rfl⟩ | ⟨-, rfl⟩ | ⟨-, rfl⟩
        · cases hr
        · cases hr with
          | function h => exact Function.inProgram h
        · cases hr
      · have hmem : (n, b) ∈ [_, _, _, _] := Bindings.mem_of_find? hb
        simp only [List.mem_cons, Prod.mk.injEq, List.not_mem_nil, or_false] at hmem
        rcases hmem with ⟨-, rfl⟩ | ⟨-, rfl⟩ | ⟨-, rfl⟩ | ⟨-, rfl⟩
        · cases hr
        · cases hr with
          | function h => exact Function.inProgram h
        · cases hr
        · cases hr
      · cases hb
    | @field i g _ hf hr =>
      obtain ⟨_ | i⟩ := i
      · have hmem : g ∈ [_] := hf
        obtain rfl := List.mem_singleton.1 hmem
        cases hr with
        | forced hr => cases hr
      · cases hf

end LazyExpr
