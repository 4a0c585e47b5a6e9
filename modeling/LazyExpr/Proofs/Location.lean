/-
LazyExpr/Proofs/Location.lean

The place that a fault is reported with.

On its way out a fault gets the span of the first node that has one, and keeps it.  So the
span of a fault is that of the innermost located node on its trail, counted from where it
arose, and there is none exactly if no node on the trail has one.  The trail goes through
parts of nodes, bodies of functions and suspended nodes alike: none of the steps in
between, the forcing of a thunk, the comparison of values, their printed text, the
elements of a list that a call gives back, touches the fault of an evaluation that it
asked for.
-/
import LazyExpr.Proofs.Trail

namespace LazyExpr

/-! ### Spans on the way -/

/-- A span that is a place in a source text. -/
def Span.located? (s : Span) : Option Span := if s.isUnlocated then none else some s

theorem Span.located?_eq_some_iff {s t : Span} :
    s.located? = some t ↔ s = t ∧ t.isUnlocated = false := by
  constructor
  · intro h
    unfold located? at h
    split at h
    · cases h
    · next hs =>
      cases h
      exact ⟨rfl, Bool.eq_false_iff.2 hs⟩
  · rintro ⟨rfl, hs⟩
    rw [located?, hs]
    rfl

theorem Span.located?_eq_none_iff {s : Span} : s.located? = none ↔ s.isUnlocated = true := by
  simp [located?]

theorem Fault.span_placedAt (f : Fault) (s : Span) :
    (f.placedAt s).span = f.span.or s.located? := by
  unfold placedAt Span.located?
  split
  · rw [Option.or_none]
  · rfl

theorem CallStack.span_attach (cs : CallStack) (names : Names) (f : Fault) :
    (cs.attach names f).span = f.span := by
  unfold attach Fault.withBacktrace
  split
  · rfl
  · rfl

variable {p : Program} {τ : Types} {a b origin : Attempt} {t : List Attempt}

theorem Attempt.Raises.span_eq (h : a.Raises p τ) : a.fault.span = a.node.span.located? := by
  cases h with
  | own cause _ hf => rw [hf, Fault.span_placedAt, Fault.ofCause, Option.none_or]
  | refused f cause _ _ hf =>
    rw [hf, Fault.span_placedAt, CallStack.span_attach, Fault.ofCause, Option.none_or]

/-- A node gives its span to a fault that has none, and to no other. -/
theorem Attempt.Passes.span_eq (h : a.Passes p b) :
    a.fault.span = b.fault.span.or a.node.span.located? := by
  cases h with
  | outside _ hf => rw [hf, Fault.span_placedAt]
  | inside f _ _ hf => rw [hf, Fault.span_placedAt, CallStack.span_attach]

namespace Account

/-- The first located span, from the origin on. -/
theorem span_eq (h : Account p τ origin (a :: t)) :
    a.fault.span = (a :: t).reverse.findSome? (·.node.span.located?) := by
  generalize ht : a :: t = trail at h
  induction h generalizing a t with
  | raised hraises =>
    cases ht
    simp [hraises.span_eq]
  | passed hpasses _ ih =>
    cases ht
    rw [List.reverse_cons, List.findSome?_append, ← ih rfl, hpasses.span_eq,
      List.findSome?_singleton]

/-- The span of a fault is that of the innermost located node. -/
theorem span_eq_some_iff (h : Account p τ origin (a :: t)) {s : Span} :
    a.fault.span = some s ↔ ∃ outer b inner, a :: t = outer ++ b :: inner ∧ b.node.span = s ∧
      s.isUnlocated = false ∧ ∀ x ∈ inner, x.node.span.isUnlocated = true := by
  rw [h.span_eq, List.findSome?_eq_some_iff]
  constructor
  · rintro ⟨inner, b, outer, ht, hb, hinner⟩
    obtain ⟨hs, hlocated⟩ := Span.located?_eq_some_iff.1 hb
    refine ⟨outer.reverse, b, inner.reverse, ?_, hs, hlocated, fun x hx => ?_⟩
    · rw [← List.reverse_reverse (a :: t), ht]
      simp
    · exact Span.located?_eq_none_iff.1 (hinner x (List.mem_reverse.1 hx))
  · rintro ⟨outer, b, inner, ht, hs, hlocated, hinner⟩
    refine ⟨inner.reverse, b, outer.reverse, ?_, ?_, fun x hx => ?_⟩
    · rw [ht]
      simp
    · exact Span.located?_eq_some_iff.2 ⟨hs, hlocated⟩
    · exact Span.located?_eq_none_iff.2 (hinner x (List.mem_reverse.1 hx))

theorem span_eq_none_iff (h : Account p τ origin (a :: t)) :
    a.fault.span = none ↔ ∀ x ∈ a :: t, x.node.span.isUnlocated = true := by
  rw [h.span_eq, List.findSome?_eq_none_iff]
  simp only [Span.located?_eq_none_iff, List.mem_reverse]

/-- A span that is set is kept all the way out. -/
theorem span_kept (h : Account p τ origin t) :
    t.Pairwise fun outer inner => ∀ s, inner.fault.span = some s → outer.fault.span = some s := by
  induction h with
  | raised _ => exact List.pairwise_singleton _ _
  | @passed a b t hpasses _ ih =>
    refine List.pairwise_cons.2 ⟨fun x hx s hs => ?_, ih⟩
    have hb : b.fault.span = some s := by
      rcases List.mem_cons.1 hx with rfl | hx
      · exact hs
      · exact (List.pairwise_cons.1 ih).1 x hx s hs
    rw [hpasses.span_eq, hb, Option.some_or]

end Account

/-- **Faults have the innermost span**: the span of a fault is that of the innermost
located node on its trail, and there is none exactly if no node on the trail is located.
A span that is set is kept from node to node, and what is done between two nodes leaves
the whole fault as it is. -/
theorem span_of_innermost_node (p : Program) (fuel reach rest : Nat) :
    (∀ n m f m', (p.context fuel reach rest).eval n m = .error (.fault f) m' →
      ∃ a t, (∀ t', Trail p fuel reach rest n m t' ↔ t' = ⟨a, m, f⟩ :: t) ∧
        (∀ s, f.span = some s ↔ ∃ outer b inner, ⟨a, m, f⟩ :: t = outer ++ b :: inner ∧
          b.node.span = s ∧ s.isUnlocated = false ∧
          ∀ x ∈ inner, x.node.span.isUnlocated = true) ∧
        (f.span = none ↔ ∀ x ∈ ⟨a, m, f⟩ :: t, x.node.span.isUnlocated = true) ∧
        (⟨a, m, f⟩ :: t).Pairwise fun outer inner =>
          ∀ s, inner.fault.span = some s → outer.fault.span = some s) ∧
    (∀ u, (p.context fuel reach rest).Relays (·.force u)) ∧
    (∀ depth (v w : Value), (p.context fuel reach rest).Relays (v.equal ·.force depth w)) ∧
    (∀ v, (p.context fuel reach rest).Relays (·.display v)) ∧
    (∀ depth v, (p.context fuel reach rest).Relays (·.escape depth v)) ∧
    ∀ g s, (p.context fuel reach rest).Relays (·.body g s) := by
  refine ⟨fun n m f m' h => ?_, ?_⟩
  · obtain ⟨a, t, origin, htrail, haccount⟩ := exists_trail h
    exact ⟨a, t, htrail, fun s => haccount.span_eq_some_iff, haccount.span_eq_none_iff,
      haccount.span_kept⟩
  · have hc := p.context_balanced fuel reach rest
    refine ⟨fun u => ?_, fun depth v w => ?_, fun v => ?_, fun depth v => ?_, fun g s => ?_⟩
    · exact (Goes.force hc u).relays
    · exact (Goes.equal hc depth v w).relays
    · exact (Goes.text hc v).relays
    · exact (Goes.escape hc depth v).relays
    · exact (Goes.body hc g s).relays

/-- A call of a function that looks at the first element of a list, which is a name that is
bound nowhere.  The call and the index have a place, the name has none. -/
def Program.lookingAtUnbound : Program :=
  ⟨#[⟨.ident ⟨1⟩, .unlocated⟩, ⟨.list [⟨0⟩], .unlocated⟩, ⟨.number ⟨0⟩, .unlocated⟩,
      ⟨.index ⟨1⟩ ⟨2⟩, ⟨4, 8⟩⟩, ⟨.lambda ⟨0⟩ [] ⟨3⟩, .unlocated⟩, ⟨.call ⟨4⟩ [], ⟨0, 20⟩⟩],
    #[⟨0, 0⟩], .initial⟩

theorem span_of_index_in_call :
    let p := Program.lookingAtUnbound
    let m : Machine := ⟨.empty, .empty, .emptyBuffer, ⟨0⟩, .empty 3⟩
    ∃ f m', (p.context 9 2 9).eval ⟨5⟩ m = .error (.fault f) m' ∧ f.span = some ⟨4, 8⟩ ∧
      ∃ a t, (∀ t', Trail p 9 2 9 ⟨5⟩ m t' ↔ t' = ⟨a, m, f⟩ :: t) ∧
        ∃ outer b inner, ⟨a, m, f⟩ :: t = outer ++ b :: inner ∧ b.node.span = ⟨4, 8⟩ ∧
          ∀ x ∈ inner, x.node.span.isUnlocated = true := by
  intro p m
  obtain ⟨f, m', hf, hspan⟩ : ∃ f m', (p.context 9 2 9).eval ⟨5⟩ m = .error (.fault f) m' ∧
      f.span = some ⟨4, 8⟩ := ⟨_, _, rfl, rfl⟩
  obtain ⟨a, t, htrail, hinnermost, -⟩ := (span_of_innermost_node p 9 2 9).1 ⟨5⟩ m f m' hf
  obtain ⟨outer, b, inner, ht, hb, -, hinner⟩ := (hinnermost _).1 hspan
  exact ⟨f, m', hf, hspan, a, t, htrail, outer, b, inner, ht, hb, hinner⟩

end LazyExpr
