/-
LazyExpr/Proofs/History.lean

The states that a session gets to.

A session starts with some program and some bindings.  From then on expressions
are added to the program, nodes of the program are run, and values that a run gave
are shown; all of it any number of times, in any order, and with failures on the
way.  What each of these does to store and types is what an evaluation does.
-/
import LazyExpr.Proofs.Invariant
import LazyExpr.Session

namespace LazyExpr

namespace Session

/-- What a session can become. -/
inductive Reachable (start : Session) : Session → Prop
  | start : Reachable start start
  | add {s : Session} (es : List Expr) : Reachable start s → Reachable start (s.addAll es).2
  | run {s : Session} (reach : Nat) (sink : Sink) {roots : List NodeId} :
      Reachable start s → (∀ r ∈ roots, r.index < s.program.size) →
      Reachable start (s.run reach sink roots).2
  | display {s : Session} {reach : Nat} {sink : Sink} {roots : List NodeId} {v : Value}
      (reach' : Nat) : Reachable start s → (∀ r ∈ roots, r.index < s.program.size) →
      (s.run reach sink roots).1.result = .ok v →
      Reachable start ((s.run reach sink roots).2.display reach' v).2

variable (s : Session)

/-- What is kept of a step that was run in a session. -/
def close {α : Type} : EStateM.Result Stop Machine α → Outcome α × Session
  | .ok a m => (⟨.ok a, m.sink.text⟩, { s with store := m.store, types := m.types })
  | .error e m => (⟨.error e, m.sink.text⟩, { s with store := m.store, types := m.types })

theorem run_eq (reach : Nat) (sink : Sink) (roots : List NodeId) :
    s.run reach sink roots = s.close (LazyExpr.run (s.context reach) roots (s.machine sink)) := rfl

theorem perform_snd {α : Type} (sink : Sink) (x : Eval α) :
    (s.perform sink x).2 =
      { s with
        store := (x.after (s.machine sink)).store
        types := (x.after (s.machine sink)).types } := by
  unfold perform Eval.after
  rcases x (s.machine sink) with ⟨a, m⟩ | ⟨e, m⟩
  · rfl
  · rfl

theorem perform_result {α : Type} (sink : Sink) (x : Eval α) :
    (s.perform sink x).1.result =
      match x (s.machine sink) with
      | .ok a _ => .ok a
      | .error e _ => .error e := by
  unfold perform
  rcases x (s.machine sink) with ⟨a, m⟩ | ⟨e, m⟩
  · rfl
  · rfl

/-- Of a session, expressions are added to the program alone, and nothing else matters
for that. -/
theorem addAll_of_program_eq {s' : Session} (h : s'.program = s.program) (es : List Expr) :
    s'.addAll es = ((s.addAll es).1, { s' with program := (s.addAll es).2.program }) := by
  unfold addAll
  rw [h]
  rcases Expr.buildAll es s.program with ⟨ids, p⟩ | ⟨e, p⟩
  · rfl
  · rfl

theorem addAll_snd (es : List Expr) :
    ∃ p, (s.addAll es).2 = { s with program := p } :=
  ⟨_, congrArg Prod.snd (s.addAll_of_program_eq rfl es)⟩

theorem store_addAll (es : List Expr) : (s.addAll es).2.store = s.store := by
  obtain ⟨p, hp⟩ := s.addAll_snd es
  rw [hp]

theorem globals_addAll (es : List Expr) : (s.addAll es).2.globals = s.globals := by
  obtain ⟨p, hp⟩ := s.addAll_snd es
  rw [hp]

end Session

/-- A property that evaluation keeps whatever the program is, holds in all states of
a session if it does at the start. -/
theorem Session.Reachable.of_storeInvariant {start s : Session} (J : (p : Program) → StoreInvariant p)
    {P : Store → Types → Prop} (hP : ∀ p, (J p).state = P) (h : start.Reachable s)
    (hstart : P start.store start.types) : P s.store s.types := by
  have hperform : ∀ {α : Type} {Q : α → Prop} (s : Session) (sink : Sink) (x : Eval α),
      (J s.program).toInvariant.Keeps Q (s.machine sink) (x (s.machine sink)) →
      P (s.perform sink x).2.store (s.perform sink x).2.types := by
    intro α Q s sink x hx
    rw [Session.perform_snd, ← hP s.program]
    exact hx.state_after
  have hrun : ∀ (s : Session) (reach : Nat) (sink : Sink) (roots : List NodeId),
      P s.store s.types → P (s.run reach sink roots).2.store (s.run reach sink roots).2.types := by
    intro s reach sink roots hs
    rw [← hP s.program] at hs
    exact hperform s sink _ (Invariant.run_keeps ((J s.program).contexts _)
      (fun r _ => ⟨rfl, trivial⟩) hs)
  induction h with
  | start => exact hstart
  | @add s es _ ih =>
    obtain ⟨p, hp⟩ := s.addAll_snd es
    rw [hp]
    exact ih
  | run reach sink _ _ ih => exact hrun _ reach sink _ ih
  | @display s reach sink roots v reach' _ _ _ ih =>
    have hs := hrun s reach sink roots ih
    rw [← hP (s.run reach sink roots).2.program] at hs
    exact hperform _ _ _ (Invariant.display_keeps ((J _).contexts _) (fun _ _ => trivial) hs)

end LazyExpr
