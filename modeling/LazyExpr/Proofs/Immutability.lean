/-
LazyExpr/Proofs/Immutability.lean

Immutable bindings are permanent.

There are two ways to write a binding.  Assignment asks first and refuses to
replace an immutable one; `define`, which binds parameters and a function's own
name, does not ask.  The invariant is that every immutable binding that a given
store has is still there.  It says nothing about scopes that are newer than the
store, and those are the only ones that `define` is used on: a call defines names
in the copy it has just made.

A call starts from that copy, so it has the immutable bindings of its caller too.
The arguments are evaluated after the copy is made and before it is used; that
they do not disturb it is the invariant again, from the store with the copy.
-/
import LazyExpr.Proofs.Call

namespace LazyExpr

/-! ### One store and a later one -/

/-- The immutable bindings of one store are in another. -/
def Store.KeepsImmutable (σ σ' : Store) : Prop :=
  ∀ s n b, (σ.bindings s).find? n = some b → b.mutability = .immutable →
    (σ'.bindings s).find? n = some b

theorem Store.KeepsImmutable.refl (σ : Store) : σ.KeepsImmutable σ := fun _ _ _ h _ => h

theorem Store.KeepsImmutable.trans {σ₁ σ₂ σ₃ : Store} (h : σ₁.KeepsImmutable σ₂)
    (h' : σ₂.KeepsImmutable σ₃) : σ₁.KeepsImmutable σ₃ :=
  fun s n b hb hm => h' s n b (h s n b hb hm) hm

theorem Bindings.isImmutable_of_find {bs : Bindings} {n : Name} {b : Binding}
    (h : bs.find? n = some b) (hb : b.mutability = .immutable) : bs.isImmutable n = true := by
  simp [Bindings.isImmutable, h, hb]

/-- A binding of another name, or one that is not immutable, may be replaced. -/
theorem Store.keepsImmutable_define {σ : Store} {s : ScopeId} {n : Name} (b : Binding)
    (h : (σ.bindings s).isImmutable n = false) : σ.KeepsImmutable (σ.define s n b) := by
  intro s' n' b' hb hm
  rw [Store.find?_define]
  split
  · next e =>
    obtain ⟨⟨rfl, -⟩, rfl⟩ := e
    rw [Bindings.isImmutable_of_find hb hm] at h
    cases h
  · exact hb

/-- What is newer than the first store does not matter. -/
theorem Store.KeepsImmutable.define {σ σ' : Store} (h : σ.KeepsImmutable σ') {s : ScopeId}
    (hs : σ.scopes.size ≤ s.index) (n : Name) (b : Binding) :
    σ.KeepsImmutable (σ'.define s n b) := by
  intro s' n' b' hb hm
  rw [Store.find?_define]
  split
  · next e =>
    obtain ⟨⟨rfl, -⟩, rfl⟩ := e
    rw [Store.bindings_of_size_le σ s' hs] at hb
    cases hb
  · exact h s' n' b' hb hm

theorem Store.KeepsImmutable.copyScope {σ σ' : Store} (h : σ.KeepsImmutable σ')
    (hle : σ.scopes.size ≤ σ'.scopes.size) (s : ScopeId) :
    σ.KeepsImmutable (σ'.copyScope s).2 := by
  intro s' n b hb hm
  rw [Store.bindings_copyScope]
  split
  · next e =>
    have hs' : σ.scopes.size ≤ s'.index := by rw [e]; exact hle
    rw [Store.bindings_of_size_le σ s' hs'] at hb
    cases hb
  · exact h s' n b hb hm

/-! ### The invariant -/

/-- Every immutable binding of a store is kept. -/
def immutability (p : Program) (σ₀ : Store) : StoreInvariant p where
  own s := σ₀.scopes.size ≤ s.index
  state σ _ := σ₀.scopes.size ≤ σ.scopes.size ∧ σ₀.KeepsImmutable σ
  assign b h himm :=
    ⟨(Store.size_define ..).symm ▸ h.1, h.2.trans (Store.keepsImmutable_define b himm)⟩
  define n v h hs := ⟨(Store.size_define ..).symm ▸ h.1, h.2.define hs n ⟨v, .mutable⟩⟩
  copy s h :=
    ⟨h.1, (Store.size_copyScope ..).symm ▸ Nat.le_succ_of_le h.1, h.2.copyScope h.1 s⟩
  add_list _ h := h
  set_field _ _ _ h := h
  add_instance h _ _ := h
  declare h _ := h

/-- Evaluation keeps the immutable bindings of every store. -/
theorem keepsImmutable_eval (p : Program) (fuel reach rest : Nat) (n : NodeId) (m : Machine) :
    m.store.KeepsImmutable (((p.context fuel reach rest).eval n).after m).store :=
  ((immutability p m.store).state_eval fuel reach rest n ⟨Nat.le_refl _, .refl _⟩).2

/-! ### The table of a call -/

/-- The arguments are bound in a table without a change to its immutable bindings
of other names. -/
theorem find_bindArguments {p : Program} {fuel reach rest : Nat} {scope : ScopeId} {n : Name}
    {b : Binding} (hm : b.mutability = .immutable) {args : List (Name × NodeId)}
    (hn : n ∉ args.map (·.1)) {m₁ m₂ : Machine}
    (h : (p.context fuel reach rest).bindArguments scope args m₁ = .ok () m₂)
    (hb : (m₁.store.bindings scope).find? n = some b) :
    (m₂.store.bindings scope).find? n = some b := by
  induction args generalizing m₁ with
  | nil =>
    cases h
    exact hb
  | cons a more ih =>
    obtain ⟨param, arg⟩ := a
    simp only [List.map_cons, List.mem_cons, not_or] at hn
    unfold Context.bindArguments at h
    obtain ⟨v, m', hv, h⟩ := Eval.bind_eq_ok.1 h
    obtain ⟨_, m'', hdef, h⟩ := Eval.bind_eq_ok.1 h
    cases hdef
    refine ih hn.2 h ?_
    -- evaluating the argument does not touch the binding, and the parameter is another name
    have hkeep := keepsImmutable_eval p fuel reach rest arg m₁ scope n b hb hm
    rw [Eval.after_of_ok hv] at hkeep
    show ((Store.define _ _ _ _).bindings _).find? n = some b
    rw [Store.find?_define, if_neg (fun e => hn.1 e.2)]
    exact hkeep

/-! ### Immutable bindings are permanent -/

/-- Whatever an evaluation does and however it ends, every immutable binding in
every table is afterwards what it was; and the table in which a call evaluates its
body has every immutable binding that the caller's table had when it was copied,
except under the names of parameters. -/
theorem immutable_bindings_permanent (p : Program) (fuel reach rest : Nat) (m : Machine) :
    (∀ (id : NodeId) (s : ScopeId) (n : Name) (b : Binding),
      (m.store.bindings s).find? n = some b → b.mutability = .immutable →
      ((((p.context fuel reach rest).eval id).after m).store.bindings s).find? n = some b) ∧
    ∀ (id : NodeId) (args : List NodeId) (f : Function) (caller : Machine) (scope : ScopeId)
      (inside : Machine), (p.context fuel reach rest).Enters id args m f caller scope inside →
      (∀ span, (p.context fuel reach rest).call span id args m =
        Eval.inFrame p.names ⟨f.name, some span⟩ ((p.context fuel reach rest).body f scope)
          inside) ∧
      ∀ (n : Name) (b : Binding), (caller.store.bindings caller.scope).find? n = some b →
        b.mutability = .immutable → n ∉ f.params →
        (inside.store.bindings scope).find? n = some b := by
  refine ⟨fun id s n b hb hm => keepsImmutable_eval p fuel reach rest id m s n b hb hm, ?_⟩
  intro id args f caller scope inside henter
  refine ⟨fun span => Context.call_of_enters henter span, ?_⟩
  intro n b hb hm hn
  obtain ⟨m₁, hscope, hargs⟩ := henter.bound
  have hparams : n ∉ (f.params.zip args).map (·.1) := by
    intro hmem
    obtain ⟨⟨n', a⟩, ha, rfl⟩ := List.mem_map.1 hmem
    exact hn (List.of_mem_zip ha).1
  exact find_bindArguments hm hparams hargs (Context.find_callScope hscope hb)

/-- With `x` immutable, the program `x = void` is refused, and a call of `f` with
the parameter `y` finds `x` as it was. -/
theorem immutable_binding_survives_assignment :
    let p : Program := ⟨#[⟨.void, .unlocated⟩, ⟨.assign ⟨1⟩ ⟨0⟩ .mutable, .unlocated⟩,
      ⟨.ident ⟨3⟩, .unlocated⟩], #[], .initial⟩
    let f : Function := ⟨⟨3⟩, [⟨2⟩], ⟨1⟩⟩
    let x : Binding := ⟨.bool true, .immutable⟩
    let m : Machine := ⟨⟨#[⟨[(⟨1⟩, x), (⟨3⟩, ⟨.function f, .mutable⟩)]⟩], #[], 0⟩, .empty,
      .emptyBuffer, ⟨0⟩, .empty 1⟩
    (m.store.bindings ⟨0⟩).find? ⟨1⟩ = some x ∧
    ((((p.context 2 1 2).eval ⟨1⟩).after m).store.bindings ⟨0⟩).find? ⟨1⟩ = some x ∧
    ∃ scope inside, (p.context 2 1 2).Enters ⟨2⟩ [⟨0⟩] m f m scope inside ∧
      (inside.store.bindings scope).find? ⟨1⟩ = some x := by
  intro p f x m
  obtain ⟨hkeep, hcall⟩ := immutable_bindings_permanent p 2 1 2 m
  have henter : (p.context 2 1 2).Enters ⟨2⟩ [⟨0⟩] m f m _ _ :=
    ⟨⟨_, rfl, rfl⟩, rfl, _, rfl, rfl⟩
  refine ⟨rfl, hkeep ⟨1⟩ ⟨0⟩ ⟨1⟩ x rfl rfl, _, _, henter, ?_⟩
  exact (hcall _ _ f _ _ _ henter).2 ⟨1⟩ x rfl rfl (by decide)

end LazyExpr
