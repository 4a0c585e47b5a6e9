/-
LazyExpr/Proofs/IndexAssignment.lean

What an index assignment writes.

An index assignment reads the list of its target first, then evaluates position and value,
and then binds the target to a copy of that list with one element replaced.
`Context.Replaces` names what it meets on the way; a successful assignment has met all of
it (`replaces_of_indexAssign`), and differs from the evaluation of the value by one binding
alone.

Position and value may bind the same name to another list in the meantime.  The copy is
made of the list that was read first, so it is right for the later list only where the two
agree anyway (`set_eq_set_iff`): what was written at another place in between is lost.
-/
import LazyExpr.Proofs.Immutability
import LazyExpr.Proofs.Locality
import LazyExpr.Proofs.Place
import LazyExpr.Session

namespace LazyExpr

/-! ### Lists that differ at one place -/

/-- Replacing an element makes two lists equal exactly if they differ nowhere else. -/
theorem set_eq_set_iff {α : Type} {xs ys : List α} {i : Nat} (hi : i < xs.length) (a : α) :
    xs.set i a = ys.set i a ↔ ys.length = xs.length ∧ ∀ j, j ≠ i → ys[j]? = xs[j]? := by
  constructor
  · intro h
    refine ⟨by simpa using (congrArg List.length h).symm, fun j hj => ?_⟩
    have hget := congrArg (·[j]?) h
    simpa only [List.getElem?_set_ne (Ne.symm hj)] using hget.symm
  · rintro ⟨hlength, hother⟩
    apply List.ext_getElem?
    intro j
    by_cases hj : j = i
    · subst hj
      rw [List.getElem?_set_self hi, List.getElem?_set_self (hlength ▸ hi)]
    · rw [List.getElem?_set_ne (Ne.symm hj), List.getElem?_set_ne (Ne.symm hj), hother j hj]

/-! ### The steps of an index assignment -/

/-- A binding that may be replaced is mutable, and what is not bound is bound so. -/
theorem Bindings.mutability_of_replaceable {bs : Bindings} {n : Name}
    (h : bs.isImmutable n = false) :
    (match bs.find? n with
      | some b => b.mutability
      | none => .mutable) = Mutability.mutable := by
  rcases hb : bs.find? n with - | ⟨v, mutability⟩
  · rfl
  · cases mutability with
    | mutable => rfl
    | immutable =>
      rw [isImmutable_of_find hb rfl] at h
      cases h

/-- An index assignment from `m` gets to its end.  It reads `items`, and the machine is
`done` when the place `i` and the value `v` are known; the target may be bound again
then. -/
structure Context.Replaces (c : Context) (target : Name) (position value : NodeId) (m : Machine)
    (items : List Thunk) (i : Fin items.length) (v : Value) (done : Machine) : Prop where
  read : ∃ id mutability,
    (m.store.bindings m.scope).find? target = some ⟨.list id items, mutability⟩
  evaluated : ∃ place m₁, c.eval position m = .ok place m₁ ∧
    Context.position place items.length = .ok i ∧ c.eval value m₁ = .ok v done
  replaceable : (done.store.bindings done.scope).isImmutable target = false

/-- The store after a name was bound to a new list. -/
def Store.rebind (σ : Store) (scope : ScopeId) (target : Name) (ts : List Thunk) : Store :=
  (σ.addList ts).2.define scope target ⟨(σ.addList ts).1, .mutable⟩

namespace Context

variable {c : Context} {target : Name} {position value : NodeId} {m m' : Machine}

/-- The last steps: a new list, and the target bound to it. -/
theorem rebind_apply (c : Context) (target : Name) (ts : List Thunk) (m : Machine) :
    (do
      let list ← Eval.newList ts
      let mutability := match ← Eval.lookup? target with
        | some b => b.mutability
        | none => .mutable
      if ← Eval.assign target ⟨list, mutability⟩ then return .void
      else Eval.raise (.immutableBinding (c.text target)) : Eval Value) m =
      if (m.store.bindings m.scope).isImmutable target then
        .error (.fault (.ofCause (.immutableBinding (c.text target))))
          { m with store := (m.store.addList ts).2 }
      else .ok .void { m with store := m.store.rebind m.scope target ts } := by
  -- the new list is in no table yet, so the binding that is found is the old one
  let n : Machine := { m with store := (m.store.addList ts).2 }
  show (Eval.assign target ⟨(m.store.addList ts).1,
      match (m.store.bindings m.scope).find? target with
        | some b => b.mutability
        | none => .mutable⟩ >>= fun done =>
    if done then return .void else Eval.raise (.immutableBinding (c.text target)) : Eval Value) n = _
  have hassign := Eval.assign_apply target ⟨(m.store.addList ts).1,
      match (m.store.bindings m.scope).find? target with
        | some b => b.mutability
        | none => .mutable⟩ n
  have hn : n.store.bindings n.scope = m.store.bindings m.scope := rfl
  rw [hn] at hassign
  cases himm : (m.store.bindings m.scope).isImmutable target with
  | true =>
    rw [himm] at hassign
    exact Eval.bind_of_ok hassign
  | false =>
    rw [himm, Bindings.mutability_of_replaceable himm] at hassign
    rw [Bindings.mutability_of_replaceable himm]
    exact Eval.bind_of_ok hassign

theorem indexAssign_of_replaces {items : List Thunk} {i : Fin items.length} {v : Value}
    {done : Machine} (h : c.Replaces target position value m items i v done) :
    c.indexAssign target position value m =
      .ok .void { done with store := done.store.rebind done.scope target (items.set i (.forced v)) } := by
  obtain ⟨⟨id, mutability, hread⟩, ⟨place, m₁, hplace, hi, hv⟩, himm⟩ := h
  have hlookup : Eval.lookup? target m = .ok (some ⟨.list id items, mutability⟩) m :=
    congrArg (EStateM.Result.ok · m) hread
  have hlast := rebind_apply c target (items.set i (.forced v)) done
  rw [himm] at hlast
  calc c.indexAssign target position value m
      = _ := Eval.bind_of_ok hlookup
    _ = _ := Eval.bind_of_ok (Eval.check_eq_ok.2 ⟨rfl, rfl⟩)
    _ = _ := Eval.bind_of_ok hplace
    _ = _ := Eval.bind_of_ok (Eval.check_eq_ok.2 ⟨hi, rfl⟩)
    _ = _ := Eval.bind_of_ok hv
    _ = _ := hlast

/-- A successful index assignment has gone through all its steps. -/
theorem replaces_of_indexAssign {r : Value}
    (h : c.indexAssign target position value m = .ok r m') :
    r = .void ∧ ∃ items i v done, c.Replaces target position value m items i v done ∧
      m' = { done with store := done.store.rebind done.scope target (items.set i (.forced v)) } := by
  unfold indexAssign at h
  obtain ⟨o, _, ho, h⟩ := Eval.bind_eq_ok.1 h
  cases ho
  rcases hold : (m.store.bindings m.scope).find? target with - | ⟨old, mutability⟩
  · rw [hold] at h
    cases h
  rw [hold] at h
  obtain ⟨items, _, hchecked, hrest⟩ := Eval.bind_eq_ok.1 h
  obtain ⟨hitems, rfl⟩ := Eval.check_eq_ok.1 hchecked
  obtain ⟨id, rfl⟩ := items_eq_ok.1 hitems
  obtain ⟨place, m₁, hplace, hrest⟩ := Eval.bind_eq_ok.1 hrest
  obtain ⟨i, _, hposition, hrest⟩ := Eval.bind_eq_ok.1 hrest
  obtain ⟨hi, rfl⟩ := Eval.check_eq_ok.1 hposition
  obtain ⟨v, done, hv, hrest⟩ := Eval.bind_eq_ok.1 hrest
  have hlast := (rebind_apply c target (items.set i (.forced v)) done).symm.trans hrest
  split at hlast
  · cases hlast
  · next himm =>
    cases hlast
    refine ⟨rfl, items, i, v, done, ⟨⟨id, mutability, hold⟩, ⟨place, _, hplace, hi, hv⟩, ?_⟩, rfl⟩
    exact Bool.eq_false_iff.2 himm

end Context

/-! ### What is bound afterwards -/

/-- A name is bound to a list with the given elements, and may be bound again. -/
def Store.BindsList (σ : Store) (scope : ScopeId) (n : Name) (ts : List Thunk) : Prop :=
  ∃ id, (σ.bindings scope).find? n = some ⟨.list id ts, .mutable⟩

theorem Store.find?_rebind {σ : Store} {scope : ScopeId} (hscope : scope.index < σ.scopes.size)
    (target : Name) (ts : List Thunk) (s : ScopeId) (n : Name) :
    ((σ.rebind scope target ts).bindings s).find? n =
      if s = scope ∧ n = target then some ⟨.list ⟨σ.lists⟩ ts, .mutable⟩
      else (σ.bindings s).find? n := by
  have hsize : scope.index < (σ.addList ts).2.scopes.size := hscope
  rw [rebind, find?_define]
  simp only [hsize, and_true]
  rfl

theorem Store.bindsList_rebind {σ : Store} {scope : ScopeId} (hscope : scope.index < σ.scopes.size)
    (target : Name) (ts us : List Thunk) :
    (σ.rebind scope target ts).BindsList scope target us ↔ ts = us := by
  rw [BindsList, find?_rebind hscope, if_pos ⟨rfl, rfl⟩]
  simp

/-- An evaluation comes back to the scope that it started in, and takes no table away. -/
theorem scope_of_eval {p : Program} {fuel reach rest : Nat} {id : NodeId} {m m' : Machine} {v : Value}
    (h : (p.context fuel reach rest).eval id m = .ok v m') :
    m'.scope = m.scope ∧ m.store.scopes.size ≤ m'.store.scopes.size := by
  have hm : (anyStore p).toInvariant.Holds m := ⟨trivial, trivial, trivial⟩
  have hcontrol := (Invariant.eval_keeps fuel reach rest (fun _ => trivial) (n := id) trivial hm).control_after
  have hle : m.store.scopes.size ≤ (((p.context fuel reach rest).eval id).after m).store.scopes.size :=
    (local_eval id).scopes_le
  rw [Eval.after_of_ok h] at hcontrol hle
  exact ⟨congrArg Control.scope hcontrol, hle⟩

/-- An index assignment that succeeds binds its target to the list that it read first, before
position and value were evaluated, with one element replaced, and changes nothing else that
they left behind.  That is the list which the target was bound to in the end, with this
element replaced, exactly if the two lists differ at no other place; whatever position and
value wrote elsewhere is lost. -/
theorem index_assignment_writes_first_reading (p : Program) (fuel reach rest : Nat)
    {target : Name} {position value : NodeId} {m m' : Machine} {r : Value}
    (h : (p.context fuel reach rest).indexAssign target position value m = .ok r m') :
    r = .void ∧ ∃ items i v done,
      (p.context fuel reach rest).Replaces target position value m items i v done ∧
      (done.scope = m.scope ∧ m'.scope = m.scope) ∧
      m'.store.BindsList m.scope target (items.set i (.forced v)) ∧
      (m'.store.instances = done.store.instances ∧ m'.types = done.types ∧ m'.sink = done.sink ∧
        ∀ s n, ¬ (s = m.scope ∧ n = target) →
          (m'.store.bindings s).find? n = (done.store.bindings s).find? n) ∧
      ∀ now, done.store.BindsList m.scope target now →
        (m'.store.BindsList m.scope target (now.set i (.forced v)) ↔
          now.length = items.length ∧ ∀ j, j ≠ (i : Nat) → now[j]? = items[j]?) := by
  obtain ⟨hr, items, i, v, done, hreplaces, rfl⟩ := Context.replaces_of_indexAssign h
  obtain ⟨id, mutability, hread⟩ := hreplaces.read
  obtain ⟨place, m₁, hplace, -, hv⟩ := hreplaces.evaluated
  obtain ⟨hscope₁, hle₁⟩ := scope_of_eval hplace
  obtain ⟨hscope₂, hle₂⟩ := scope_of_eval hv
  have hscope : done.scope = m.scope := hscope₂.trans hscope₁
  -- the table of the target is there, since something was read from it
  have hlt : m.scope.index < done.store.scopes.size := by
    by_contra hge
    rw [Store.bindings_of_size_le _ _ (by omega)] at hread
    cases hread
  refine ⟨hr, items, i, v, done, hreplaces, ⟨hscope, hscope⟩, ?_,
    ⟨rfl, rfl, rfl, fun s n hne => ?_⟩, fun now _ => ?_⟩
  · rw [hscope, Store.bindsList_rebind hlt]
  · rw [hscope, Store.find?_rebind hlt, if_neg hne]
  · rw [hscope, Store.bindsList_rebind hlt, set_eq_set_iff i.isLt]

/-! ### An update inside an index assignment -/

/-- The value of an index assignment writes to a place of the list itself, and then gives
`v`.  The list that the target is bound to in between has this write, and the list that it is
bound to in the end does not. -/
theorem Context.indexAssign_of_nested {p : Program} {fuel reach rest : Nat} {m : Machine} {x : Name}
    {id : ListId} {items : List Thunk} {position block write place new last : NodeId}
    {span span' : Span} {i j : Fin items.length} {at₁ at₂ v w : Value}
    (hx : (m.store.bindings m.scope).find? x = some ⟨.list id items, .mutable⟩)
    (hscope : m.scope.index < m.store.scopes.size)
    (hblock : p.node? block = some ⟨.seq [write] last, span⟩)
    (hwrite : p.node? write = some ⟨.indexAssign x place new, span'⟩)
    (hposition : (p.context fuel reach (rest + 2)).eval position m = .ok at₁ m)
    (hi : Context.position at₁ items.length = .ok i)
    (hplace : (p.context fuel reach rest).eval place m = .ok at₂ m)
    (hj : Context.position at₂ items.length = .ok j)
    (hnew : (p.context fuel reach rest).eval new m = .ok w m)
    (hlast : ∀ m', (p.context fuel reach (rest + 1)).eval last m' = .ok v m') :
    ∃ done m', (p.context fuel reach (rest + 2)).eval block m = .ok v done ∧
      done.store.BindsList m.scope x (items.set j (.forced w)) ∧
      (p.context fuel reach (rest + 2)).indexAssign x position block m = .ok .void m' ∧
      m'.store.BindsList m.scope x (items.set i (.forced v)) := by
  have hinner : (p.context fuel reach rest).Replaces x place new m items j w m :=
    ⟨⟨id, _, hx⟩, ⟨at₂, m, hplace, hj, hnew⟩, by simp [Bindings.isImmutable, hx]⟩
  have hfirst := eval_of_evalKind hwrite (indexAssign_of_replaces hinner)
  have hstatements := Eval.bind_of_ok (f := fun _ => pure ()) (Eval.bind_of_ok (f := fun _ => pure ()) hfirst)
  have hvalue := eval_of_evalKind hblock ((Eval.bind_of_ok hstatements).trans (hlast _))
  have hdone := (Store.bindsList_rebind hscope x (items.set j (.forced w)) _).2 rfl
  have houter : (p.context fuel reach (rest + 2)).Replaces x position block m items i v _ :=
    ⟨⟨id, _, hx⟩, ⟨at₁, m, hposition, hi, hvalue⟩, by
      obtain ⟨id, hid⟩ := hdone
      simp [Bindings.isImmutable, hid]⟩
  refine ⟨_, _, hvalue, hdone, indexAssign_of_replaces houter, ?_⟩
  exact (Store.bindsList_rebind ((Store.size_define _ _ _ _).symm ▸ hscope) _ _ _).2 rfl

theorem Context.eval_number {p : Program} {fuel reach rest : Nat} {id : NodeId} {n : NumberId}
    {d : Decimal} {span : Span} (hnode : p.node? id = some ⟨.number n, span⟩)
    (hn : p.number? n = some d) (m : Machine) :
    (p.context fuel reach (rest + 1)).eval id m = .ok (.number d) m := by
  apply eval_of_evalKind hnode
  show (do return Value.number (← Eval.present (p.number? n)) : Eval Value) m = _
  rw [hn]
  rfl

/-- `x` becomes `[1, 2, 3]`; then its element 0 is assigned 5, by an expression that assigns 9
to its element 1 first. -/
def nestedUpdate : List Expr :=
  [.assign .mutable "x" (.list [.integer 1, .integer 2, .integer 3]),
    .indexAssign "x" (.integer 0) (.seq [.indexAssign "x" (.integer 1) (.integer 9)] (.integer 5))]

/-- The session in which only the first of the two expressions was run. -/
def Session.beforeUpdate : Session :=
  (((bare 1).addAll nestedUpdate).2.run 1 .emptyBuffer [⟨4⟩]).2

/-- The 9 is in the list that `x` is bound to when the value is known, and the 2 is there
again at the end. -/
theorem update_lost_in_nested_assignment :
    let c := Session.beforeUpdate.program.context 24 1 24
    let m := Session.beforeUpdate.machine .emptyBuffer
    ∃ done m', c.eval ⟨10⟩ m = .ok (.number (.ofInt 5)) done ∧
      done.store.BindsList m.scope ⟨1⟩
        [.deferred ⟨0⟩ m.scope, .forced (.number (.ofInt 9)), .deferred ⟨2⟩ m.scope] ∧
      c.indexAssign ⟨1⟩ ⟨5⟩ ⟨10⟩ m = .ok .void m' ∧
      m'.store.BindsList m.scope ⟨1⟩
        [.forced (.number (.ofInt 5)), .deferred ⟨1⟩ m.scope, .deferred ⟨2⟩ m.scope] ∧
      ¬ m'.store.BindsList m.scope ⟨1⟩
        [.forced (.number (.ofInt 5)), .forced (.number (.ofInt 9)), .deferred ⟨2⟩ m.scope] := by
  intro c m
  let p := Session.beforeUpdate.program
  obtain ⟨hscope, hx, hblock, hwrite⟩ : m.scope.index < m.store.scopes.size ∧
      (m.store.bindings m.scope).find? ⟨1⟩ = some ⟨.list ⟨0⟩
        [.deferred ⟨0⟩ m.scope, .deferred ⟨1⟩ m.scope, .deferred ⟨2⟩ m.scope], .mutable⟩ ∧
      p.node? ⟨10⟩ = some ⟨.seq [⟨8⟩] ⟨9⟩, .unlocated⟩ ∧
      p.node? ⟨8⟩ = some ⟨.indexAssign ⟨1⟩ ⟨6⟩ ⟨7⟩, .unlocated⟩ := by decide +kernel
  obtain ⟨h₅, h₆, h₇, h₉, h₀, h₁, hn, hr⟩ :
      p.node? ⟨5⟩ = some ⟨.number ⟨3⟩, .unlocated⟩ ∧ p.node? ⟨6⟩ = some ⟨.number ⟨4⟩, .unlocated⟩ ∧
      p.node? ⟨7⟩ = some ⟨.number ⟨5⟩, .unlocated⟩ ∧ p.node? ⟨9⟩ = some ⟨.number ⟨6⟩, .unlocated⟩ ∧
      p.number? ⟨3⟩ = some (.ofInt 0) ∧ p.number? ⟨4⟩ = some (.ofInt 1) ∧
      p.number? ⟨5⟩ = some (.ofInt 9) ∧ p.number? ⟨6⟩ = some (.ofInt 5) := by decide +kernel
  have hposition : c.eval ⟨5⟩ m = .ok (.number (.ofInt 0)) m := Context.eval_number h₅ h₀ m
  have hplaces (k : Fin 3) : Context.position (.number (.ofInt k)) 3 = .ok k :=
    (Context.position_eq_ok_iff (by decide)).2 ⟨_, rfl, by simp [Decimal.toRat_ofInt]⟩
  obtain ⟨done, m', hvalue, hdone, hrun, hbound⟩ := Context.indexAssign_of_nested hx hscope hblock
    hwrite hposition (hplaces 0) (Context.eval_number h₆ h₁ m) (hplaces 1)
    (Context.eval_number h₇ hn m) (Context.eval_number h₉ hr)
  refine ⟨done, m', hvalue, hdone, hrun, hbound, ?_⟩
  obtain ⟨-, items, i, v, done', ⟨⟨_, _, hread⟩, ⟨_, _, hp, hi, hv⟩, -⟩, -, -, -, hiff⟩ :=
    index_assignment_writes_first_reading _ _ _ _ hrun
  -- the two readings are those of `hx` and `hdone`
  cases hx.symm.trans hread
  cases hposition.symm.trans hp
  cases (hplaces 0).symm.trans hi
  cases hvalue.symm.trans hv
  intro hkept
  have hsecond := ((hiff _ hdone).1 hkept).2 1 (by decide)
  cases hsecond

end LazyExpr
