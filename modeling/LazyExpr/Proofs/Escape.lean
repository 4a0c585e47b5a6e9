/-
LazyExpr/Proofs/Escape.lean

What a call returns.

The list that the body of a function gives is not returned as it is: its elements are forced
before the call is left, and so are those of the lists among them.  `Context.Escapes` says so
without a bound on the depth, as a chain of machines: every element is forced once, from left
to right, what it gives escapes in turn, and at the end a new list is made of the results.  A
call that succeeds has evaluated the body and let its value escape (`escapes_of_call`).

What has escaped holds no deferred thunk in any of its lists (`Value.Forced`), so to take an
element out of it is to read it: whoever does it, in whatever state, gets the same answer and
leaves the state as it was (`element_of_forced`).
-/
import LazyExpr.Proofs.Call
import LazyExpr.Proofs.Place
import LazyExpr.Session

namespace LazyExpr

/-! ### Forced values -/

/-- What is found in a value by going down through lists; data is not looked into. -/
inductive Value.Contains (v : Value) : Value → Prop
  | self : v.Contains v
  | element {i : ListId} {ts : List Thunk} {w : Value} :
      v.Contains (.list i ts) → .forced w ∈ ts → v.Contains w

/-- No list in the value holds a deferred thunk. -/
def Value.Forced (v : Value) : Prop :=
  ∀ i ts, v.Contains (.list i ts) → ∀ t ∈ ts, ∃ w, t = .forced w

namespace Value

variable {v w : Value} {i : ListId} {ts : List Thunk}

theorem Contains.trans {u : Value} (hvw : v.Contains w) (hwu : w.Contains u) : v.Contains u := by
  induction hwu with
  | self => exact hvw
  | element _ hmem ih => exact ih.element hmem

theorem contains_list_iff :
    (Value.list i ts).Contains w ↔ w = .list i ts ∨ ∃ u, .forced u ∈ ts ∧ u.Contains w := by
  constructor
  · intro h
    induction h with
    | self => exact .inl rfl
    | element _ hmem ih =>
      rcases ih with hlist | ⟨u, hu, hcontains⟩
      · cases hlist
        exact .inr ⟨_, hmem, .self⟩
      · exact .inr ⟨u, hu, hcontains.element hmem⟩
  · rintro (rfl | ⟨u, hu, hcontains⟩)
    · exact .self
    · exact (Contains.self.element hu).trans hcontains

theorem forced_of_ne_list (h : ∀ i ts, v ≠ .list i ts) : v.Forced := by
  have hself : ∀ w, v.Contains w → w = v := by
    intro w hw
    induction hw with
    | self => rfl
    | element _ _ ih => exact absurd ih.symm (h _ _)
  intro i ts hlist
  exact absurd (hself _ hlist).symm (h i ts)

theorem forced_list_iff :
    (Value.list i ts).Forced ↔ ∀ t ∈ ts, ∃ w, t = .forced w ∧ w.Forced := by
  constructor
  · intro h t ht
    obtain ⟨w, rfl⟩ := h i ts .self t ht
    exact ⟨w, rfl, fun j us hus => h j us (contains_list_iff.2 (.inr ⟨w, ht, hus⟩))⟩
  · intro h j us hus t ht
    rcases contains_list_iff.1 hus with hlist | ⟨u, hu, hcontains⟩
    · cases hlist
      obtain ⟨w, rfl, -⟩ := h t ht
      exact ⟨w, rfl⟩
    · obtain ⟨w, hw, hforced⟩ := h _ hu
      cases hw
      exact hforced j us hcontains t ht

theorem forced_list_of_forall {vs : List Value} (h : ∀ v ∈ vs, v.Forced) :
    (Value.list i (vs.map .forced)).Forced := by
  refine forced_list_iff.2 fun t ht => ?_
  obtain ⟨v, hv, rfl⟩ := List.mem_map.1 ht
  exact ⟨v, rfl, h v hv⟩

end Value

/-! ### Taking out elements -/

namespace Context

/-- Take out an element: what an index expression does when the values of its parts are
known. -/
def element (c : Context) (list place : Value) : Eval Value := do
  let items ← Eval.check (Context.items list)
  let i ← Eval.check (Context.position place items.length)
  c.force (items.get i)

theorem index_eq (c : Context) (source position : NodeId) :
    c.index source position = (do
      let list ← c.eval source
      let place ← c.eval position
      c.element list place) := rfl

/-- An element of a forced value is read, and is forced again. -/
theorem element_of_forced {v : Value} (hv : v.Forced) (place : Value) :
    (∃ cause, ∀ (c : Context) m, c.element v place m = Eval.raise cause m) ∨
      ∃ w, w.Forced ∧ ∀ (c : Context) m, c.element v place m = .ok w m := by
  rcases hitems : Context.items v with cause | ts
  · refine .inl ⟨cause, fun c m => ?_⟩
    rw [element, hitems]
    rfl
  rcases hi : Context.position place ts.length with cause | i
  · refine .inl ⟨cause, fun c m => ?_⟩
    rw [element, hitems]
    show (Eval.check (Context.position place ts.length) >>= fun i => c.force (ts.get i)) m = _
    rw [hi]
    rfl
  · obtain ⟨id, rfl⟩ := items_eq_ok.1 hitems
    obtain ⟨w, hw, hforced⟩ := Value.forced_list_iff.1 hv (ts.get i) (List.get_mem ts i)
    refine .inr ⟨w, hforced, fun c m => ?_⟩
    show (Eval.check (Context.position place ts.length) >>= fun i => c.force (ts.get i)) m = _
    rw [hi]
    show c.force (ts.get i) m = _
    rw [hw]
    rfl

/-- Taking elements out of elements evaluates nothing and changes nothing, however deep it
goes. -/
theorem foldlM_element_of_forced {v : Value} (hv : v.Forced) (places : List Value) :
    ∃ answer : Except Cause Value, ∀ (c : Context) m,
      places.foldlM c.element v m = Eval.check answer m := by
  induction places generalizing v with
  | nil => exact ⟨.ok v, fun _ _ => rfl⟩
  | cons place places ih =>
    rcases element_of_forced hv place with ⟨cause, h⟩ | ⟨w, hw, h⟩
    · exact ⟨.error cause, fun c m => Eval.bind_of_error (h c m)⟩
    · obtain ⟨answer, hanswer⟩ := ih hw
      exact ⟨answer, fun c m => (Eval.bind_of_ok (h c m)).trans (hanswer c m)⟩

/-! ### Escaping -/

mutual

/-- From one machine to another, a value escapes as another value. -/
inductive Escapes (c : Context) : Value → Machine → Value → Machine → Prop
  /-- Only lists are looked into. -/
  | other {v : Value} (m : Machine) : (∀ i ts, v ≠ .list i ts) → c.Escapes v m v m
  /-- A list becomes a new one, made of what its elements gave. -/
  | list (i : ListId) {ts : List Thunk} {m m' : Machine} {vs : List Value} :
      c.EscapesAll ts m vs m' →
      c.Escapes (.list i ts) m (m'.store.addForced vs).1
        { m' with store := (m'.store.addForced vs).2 }

/-- From one machine to another, thunks are forced from left to right, and the value of each
escapes before the next is forced. -/
inductive EscapesAll (c : Context) : List Thunk → Machine → List Value → Machine → Prop
  | nil (m : Machine) : c.EscapesAll [] m [] m
  | cons {t : Thunk} {ts : List Thunk} {u v : Value} {vs : List Value} {m m₁ m₂ m₃ : Machine} :
      c.force t m = .ok u m₁ → c.Escapes u m₁ v m₂ → c.EscapesAll ts m₂ vs m₃ →
      c.EscapesAll (t :: ts) m (v :: vs) m₃

end

variable {c : Context}

/-- As many values as thunks. -/
theorem EscapesAll.length_eq {ts : List Thunk} {vs : List Value} {m m' : Machine}
    (h : c.EscapesAll ts m vs m') : vs.length = ts.length := by
  induction ts generalizing vs m with
  | nil =>
    cases h
    rfl
  | cons t ts ih =>
    cases h with
    | cons _ _ hrest => exact congrArg (· + 1) (ih hrest)

mutual

theorem Escapes.forced {v w : Value} {m m' : Machine} (h : c.Escapes v m w m') : w.Forced :=
  match h with
  | .other _ hv => Value.forced_of_ne_list hv
  | .list _ hall => Value.forced_list_of_forall hall.forced

theorem EscapesAll.forced {ts : List Thunk} {vs : List Value} {m m' : Machine}
    (h : c.EscapesAll ts m vs m') : ∀ v ∈ vs, v.Forced :=
  match h with
  | .nil _ => fun _ hv => absurd hv List.not_mem_nil
  | .cons _ hv hrest => List.forall_mem_cons.2 ⟨hv.forced, hrest.forced⟩

end

theorem escapes_of_ne_list {depth : Nat} {v w : Value} {m m' : Machine}
    (hv : ∀ i ts, v ≠ .list i ts) (h : c.escape depth v m = .ok w m') : c.Escapes v m w m' := by
  unfold escape at h
  split at h
  · exact absurd rfl (hv _ _)
  · cases h
    exact .other m hv

theorem escapesAll_of_mapM {depth : Nat}
    (hescape : ∀ {v w m m'}, c.escape depth v m = .ok w m' → c.Escapes v m w m')
    {ts : List Thunk} {vs : List Value} {m m' : Machine}
    (h : (ts.mapM fun t => do
      let v ← c.force t
      c.escape depth v : Eval (List Value)) m = .ok vs m') : c.EscapesAll ts m vs m' := by
  induction ts generalizing vs m with
  | nil =>
    cases h
    exact .nil _
  | cons t ts ih =>
    rw [List.mapM_cons] at h
    obtain ⟨v, m₂, hv, h⟩ := Eval.bind_eq_ok.1 h
    obtain ⟨u, m₁, hu, hv⟩ := Eval.bind_eq_ok.1 hv
    obtain ⟨vs, m₃, hvs, h⟩ := Eval.bind_eq_ok.1 h
    cases h
    exact .cons hu (hescape hv) (ih hvs)

/-- What comes out of `escape` has escaped. -/
theorem escapes_of_escape {depth : Nat} {v w : Value} {m m' : Machine}
    (h : c.escape depth v m = .ok w m') : c.Escapes v m w m' := by
  induction depth generalizing v w m m' with
  | zero =>
    cases v with
    | list i ts => cases h
    | _ => exact escapes_of_ne_list (by simp) h
  | succ depth ih =>
    cases v with
    | list i ts =>
      unfold escape at h
      obtain ⟨vs, m₁, hvs, hnew⟩ := Eval.bind_eq_ok.1 h
      cases hnew
      exact .list i (escapesAll_of_mapM ih hvs)
    | _ => exact escapes_of_ne_list (by simp) h

/-- A call that succeeds has evaluated a body under the active calls with the new one, and let
the value of the body escape. -/
theorem escapes_of_call {span : Span} {id : NodeId} {args : List NodeId} {v : Value} {m m' : Machine}
    (h : c.call span id args m = .ok v m') :
    ∃ f caller scope inside calls w done returned,
      c.Enters id args m f caller scope inside ∧
      inside.calls.push ⟨f.name, some span⟩ = .ok calls ∧
      Eval.inScope scope (c.eval f.body) { inside with calls } = .ok w done ∧
      c.Escapes w done v returned ∧ m' = { returned with calls := returned.calls.pop } := by
  obtain ⟨f, caller, scope, inside, henters, hframe⟩ := enters_of_call h
  obtain ⟨calls, returned, hpush, hbody, rfl⟩ := Eval.exists_of_inFrame hframe
  obtain ⟨w, done, hw, hescape⟩ := Eval.bind_eq_ok.1 hbody
  exact ⟨f, caller, scope, inside, calls, w, done, returned, henters, hpush, hw,
    escapes_of_escape hescape, rfl⟩

end Context

/-! ### What is returned -/

/-- A value that a call returns holds no deferred thunk in any list, so that taking elements
out of it, and out of these in turn, evaluates nothing, changes nothing and does not depend on
the state.  It is what the value of the body escaped as; if that is a list, it has as many
elements, which are the values of its elements, forced once each from left to right, as they
escaped. -/
theorem call_returns_forced_lists {c : Context} {span : Span} {id : NodeId} {args : List NodeId}
    {v : Value} {m m' : Machine} (h : c.call span id args m = .ok v m') :
    v.Forced ∧
    (∀ places : List Value, ∃ answer : Except Cause Value, ∀ (c' : Context) n,
      places.foldlM c'.element v n = Eval.check answer n) ∧
    ∃ f caller scope inside calls w done returned,
      c.Enters id args m f caller scope inside ∧
      inside.calls.push ⟨f.name, some span⟩ = .ok calls ∧
      Eval.inScope scope (c.eval f.body) { inside with calls } = .ok w done ∧
      c.Escapes w done v returned ∧ m' = { returned with calls := returned.calls.pop } ∧
      ∀ i ts, w = .list i ts → ∃ j vs last, v = .list j (vs.map .forced) ∧
        vs.length = ts.length ∧ c.EscapesAll ts done vs last := by
  obtain ⟨f, caller, scope, inside, calls, w, done, returned, henters, hpush, hw, hescapes, hm'⟩ :=
    Context.escapes_of_call h
  refine ⟨hescapes.forced, Context.foldlM_element_of_forced hescapes.forced, f, caller, scope,
    inside, calls, w, done, returned, henters, hpush, hw, hescapes, hm', ?_⟩
  rintro i ts rfl
  cases hescapes with
  | other _ hne => exact absurd rfl (hne i ts)
  | list _ hall => exact ⟨_, _, _, rfl, hall.length_eq, hall⟩

/-- A function that returns a list with a list in it, and a call of it. -/
def nestedList : List Expr :=
  [.assign .mutable "f" (.lambda "f" [] (.list [.list [.bool true], .void])),
    .callNamed "f" []]

/-- The session in which the function is bound. -/
def Session.withNestedList : Session :=
  (((bare 1).addAll nestedList).2.run 1 .emptyBuffer [⟨5⟩]).2

local instance : DecidableEq Value := Value.decEq

/-- The two elements of the list, and the one of the list inside, were deferred in the body
and are values in what the call returns. -/
theorem nested_list_returned_forced :
    let c := Session.withNestedList.program.context 9 3 9
    let v : Value := .list ⟨3⟩ [.forced (.list ⟨2⟩ [.forced (.bool true)]), .forced .void]
    (∃ m', c.call .unlocated ⟨6⟩ [] (Session.withNestedList.machine .emptyBuffer) = .ok v m') ∧
      v.Forced ∧ ∀ places : List Value, ∃ answer : Except Cause Value, ∀ (c' : Context) n,
        places.foldlM c'.element v n = Eval.check answer n := by
  intro c v
  have hvalue : (match c.call .unlocated ⟨6⟩ [] (Session.withNestedList.machine .emptyBuffer) with
      | .ok w _ => some w
      | .error _ _ => none) = some v := by decide +kernel
  rcases hrun : c.call .unlocated ⟨6⟩ [] (Session.withNestedList.machine .emptyBuffer) with
    ⟨w, m'⟩ | ⟨e, m'⟩
  · rw [hrun] at hvalue
    cases hvalue
    obtain ⟨hforced, helements, -⟩ := call_returns_forced_lists hrun
    exact ⟨⟨m', rfl⟩, hforced, helements⟩
  · rw [hrun] at hvalue
    cases hvalue

end LazyExpr
