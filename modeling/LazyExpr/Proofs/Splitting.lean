/-
LazyExpr/Proofs/Splitting.lean

A program may be split over a session.

To run two programs one after the other is to run them as one: the second starts in
the machine that the first left behind, except that it has a sink of its own.  For
this the first has to leave scope and calls as it found them, and nothing that a
program does may depend on what has been printed.  Both are simulations of a run with
itself, which differ in the relation of the sinks (`sinks`).

It makes no difference either when the second program joins the text, before the first
is run or after (`Growth`).
-/
import LazyExpr.Proofs.Growth

namespace LazyExpr

/-! ### Sinks -/

/-- The sink with a text before the text that it keeps. -/
def Sink.prepend (t : String) : Sink → Sink
  | buffer kept => buffer (t ++ kept)
  | silent => silent

theorem Sink.write_prepend (t : String) (s : Sink) (text : String) :
    (s.prepend t).write text = (s.write text).prepend t := by
  cases s with
  | buffer kept => simp [prepend, write, String.append_assoc]
  | silent => rfl

/-- The machine with a text before what has been printed. -/
def Machine.prepend (t : String) (m : Machine) : Machine := { m with sink := m.sink.prepend t }

/-- A relation between sinks that goes on to hold when both are written to. -/
structure Sink.Kept (R : Sink → Sink → Prop) : Prop where
  write : ∀ {a b} (text : String), R a b → R (a.write text) (b.write text)

/-- Equal machines up to their sinks. -/
def sinks (p : Program) (R : Sink → Sink → Prop) (hR : Sink.Kept R) : Simulation p p :=
  { (anyStore p).toInvariant.simulation with
    sink := R
    write := hR.write }

section

variable {p : Program} (fuel reach rest : Nat)

theorem sinks_run {R : Sink → Sink → Prop} (hR : Sink.Kept R) (k : Control) (roots : List NodeId) :
    (sinks p R hR).Agree k k (sinks p R hR).OnValue (run (p.context fuel reach rest) roots)
      (run (p.context fuel reach rest) roots) := by
  have P : (sinks p R hR).Programs :=
    .of_within (anyStore p).toInvariant rfl (fun _ => rfl) (fun _ => rfl)
      fun _ _ => ⟨rfl, trivial⟩
  have hc : (sinks p R hR).Contexts k k _ (p.context fuel reach rest)
      (p.context fuel reach rest) :=
    Simulation.context_agree P (.inl rfl) (.inl rfl) (.inl rfl) ⟨rfl, trivial⟩ ⟨rfl, trivial⟩
  exact Simulation.run_agree hc (List.forall₂_same.2 fun _ _ => ⟨rfl, trivial⟩)

/-- A run gives scope and calls back as they were, and the sink stays a buffer. -/
theorem after_run {m : Machine} {t : String} (hm : m.sink = .buffer t) (roots : List NodeId) :
    ((run (p.context fuel reach rest) roots).after m).control = m.control ∧
      ∃ u, ((run (p.context fuel reach rest) roots).after m).sink = .buffer u := by
  have hkept : Sink.Kept fun a b => a = b ∧ ∃ u, a = .buffer u := by
    constructor
    rintro a _ text ⟨rfl, u, rfl⟩
    exact ⟨rfl, u ++ text, rfl⟩
  have hm' : (sinks p _ hkept).Holds m.control m.control m m :=
    ⟨rfl, rfl, ⟨rfl, trivial⟩, ⟨rfl, t, hm⟩, rfl, rfl, trivial⟩
  have hr : (sinks p _ hkept).Ends m.control m.control _ (run (p.context fuel reach rest) roots m)
      (run (p.context fuel reach rest) roots m) :=
    sinks_run fuel reach rest hkept m.control roots m m hm'
  rw [Eval.after]
  generalize run (p.context fuel reach rest) roots m = r at hr
  cases hr with
  | ok _ hn => exact ⟨hn.left, hn.sink.2⟩
  | error _ hn => exact ⟨hn.left, hn.sink.2⟩
  | excused he _ => exact he.elim

/-- What was printed before has no influence on a run. -/
theorem run_prepend (t : String) (roots : List NodeId) (m : Machine) :
    run (p.context fuel reach rest) roots (m.prepend t) =
      Eval.mapMachine (Machine.prepend t) (run (p.context fuel reach rest) roots m) := by
  have hkept : Sink.Kept fun a b => b = a.prepend t := by
    constructor
    rintro a _ text rfl
    exact a.write_prepend t text
  have hm : (sinks p _ hkept).Holds m.control m.control m (m.prepend t) :=
    ⟨rfl, rfl, ⟨rfl, trivial⟩, rfl, rfl, rfl, trivial⟩
  have hsame : ∀ {n n' : Machine}, (sinks p _ hkept).Holds m.control m.control n n' →
      n' = n.prepend t := by
    intro n n' hn
    have hsink : n'.sink = n.sink.prepend t := hn.sink
    rw [hn.eq fun hσ => ⟨hσ.1, hσ.2.1⟩, hsink, ← hn.left]
    rfl
  have hrun := (sinks_run fuel reach rest hkept m.control roots).eq_or_excused hm
    (fun hv => (Likeness.onValue_within.1 hv).1) (fun he => he.1) hsame
  exact hrun.resolve_left fun ⟨_, _, _, hfalse⟩ => hfalse

end

/-! ### One run after another -/

theorem runFrom_append (c : Context) (v : Value) (xs ys : List NodeId) :
    runFrom c v (xs ++ ys) = runFrom c v xs >>= fun w => runFrom c w ys := by
  induction xs generalizing v with
  | nil => rfl
  | cons x xs ih =>
    show (c.eval x >>= fun w => runFrom c w (xs ++ ys)) =
      (c.eval x >>= fun w => runFrom c w xs) >>= fun w => runFrom c w ys
    rw [bind_assoc]
    exact congrArg (c.eval x >>= ·) (funext ih)

/-- With something to run, the value that was there before is dropped. -/
theorem run_append (c : Context) (xs : List NodeId) {ys : List NodeId} (hne : ys ≠ []) :
    run c (xs ++ ys) = run c xs >>= fun _ => run c ys := by
  have hdrop : ∀ w, runFrom c w ys = run c ys := by
    intro w
    cases ys with
    | nil => exact absurd rfl hne
    | cons y ys => rfl
  rw [run, runFrom_append]
  exact congrArg (runFrom c .void xs >>= ·) (funext hdrop)

namespace Session

/-- The outcome of a program that goes on with a second one: a fault in the first is
the end. -/
def continued (first second : Outcome Value × Session) : Outcome Value × Session :=
  match first.1.result with
  | .ok _ => (⟨second.1.result, first.1.output ++ second.1.output⟩, second.2)
  | .error _ => first

/-- A machine that a run left behind is the one in which the next run starts, but for
what has been printed. -/
theorem eq_prepend {s : Session} {m : Machine} {v : Value} {t : String}
    (hcontrol : m.control = (s.machine .emptyBuffer).control) (hsink : m.sink = .buffer t) :
    m = ((s.close (.ok v m)).2.machine .emptyBuffer).prepend t := by
  obtain ⟨σ, τ, out, scope, calls⟩ := m
  obtain rfl : scope = s.globals := congrArg Control.scope hcontrol
  obtain rfl : calls = .empty s.limit := congrArg Control.calls hcontrol
  obtain rfl : out = .buffer t := hsink
  simp [close, machine, Machine.prepend, Sink.prepend, Sink.emptyBuffer]

theorem close_prepend {s : Session} {x : Eval Value} {m : Machine} {u : String}
    (h : (x.after m).sink = .buffer u) (t : String) :
    s.close (Eval.mapMachine (Machine.prepend t) (x m)) =
      (⟨(s.close (x m)).1.result, t ++ (s.close (x m)).1.output⟩, (s.close (x m)).2) := by
  cases hr : x m with
  | ok v n =>
    rw [Eval.after_of_ok hr] at h
    simp [Eval.mapMachine, close, Machine.prepend, h, Sink.prepend, Sink.text]
  | error e n =>
    rw [Eval.after_of_error hr] at h
    simp [Eval.mapMachine, close, Machine.prepend, h, Sink.prepend, Sink.text]

theorem after_run (s : Session) (reach : Nat) (roots : List NodeId) :
    ((LazyExpr.run (s.context reach) roots).after (s.machine .emptyBuffer)).control =
      (s.machine .emptyBuffer).control ∧
    ∃ t, ((LazyExpr.run (s.context reach) roots).after (s.machine .emptyBuffer)).sink =
      .buffer t :=
  LazyExpr.after_run s.fuel reach s.fuel rfl roots

theorem run_append (s : Session) (reach : Nat) (roots₁ : List NodeId) {roots₂ : List NodeId}
    (hne : roots₂ ≠ []) :
    s.run reach .emptyBuffer (roots₁ ++ roots₂) =
      continued (s.run reach .emptyBuffer roots₁)
        ((s.run reach .emptyBuffer roots₁).2.run reach .emptyBuffer roots₂) := by
  obtain ⟨hcontrol, t, hsink⟩ := s.after_run reach roots₁
  rw [run_eq, run_eq, LazyExpr.run_append _ _ hne]
  cases h : LazyExpr.run (s.context reach) roots₁ (s.machine .emptyBuffer) with
  | error e m =>
    rw [Eval.bind_of_error h]
    rfl
  | ok v m =>
    rw [Eval.after_of_ok h] at hcontrol hsink
    rw [Eval.bind_of_ok h]
    -- the second run, from where it starts in the session
    let s' : Session := (s.close (.ok v m)).2
    obtain ⟨-, u, hu⟩ := s'.after_run reach roots₂
    have hsecond : LazyExpr.run (s.context reach) roots₂ m = Eval.mapMachine (Machine.prepend t)
        (LazyExpr.run (s'.context reach) roots₂ (s'.machine .emptyBuffer)) := by
      rw [eq_prepend (v := v) hcontrol hsink]
      exact run_prepend s.fuel reach s.fuel t roots₂ (s'.machine .emptyBuffer)
    have htext : m.sink.text = t := by
      rw [hsink]
      rfl
    have hclose : ∀ r : EStateM.Result Stop Machine Value, s'.close r = s.close r := by
      intro r
      cases r <;> rfl
    rw [hsecond, close_prepend hu t, ← hclose, ← htext]
    rfl

end Session

/-! ### Two programs -/

/-- To run two programs as one is to run them one after the other: the outcome is that
of the second, with both outputs, and the session is left as the second leaves it; if
the first fails, its outcome is all.  This is so whatever the session refers to.  In a
valid session it does not matter when the expressions of the second program are
added, before the first is run or after: the first has the same outcome, and both ways
lead to the same nodes and the same session. -/
theorem splitting_unobservable (s : Session) (es : List Expr) (roots₁ : List NodeId)
    {roots₂ : List NodeId} (hne : roots₂ ≠ []) (reach : Nat) :
    (s.addAll es).2.run reach .emptyBuffer (roots₁ ++ roots₂) =
      Session.continued ((s.addAll es).2.run reach .emptyBuffer roots₁)
        (((s.addAll es).2.run reach .emptyBuffer roots₁).2.run reach .emptyBuffer roots₂) ∧
    (s.Valid → (∀ r ∈ roots₁, r.index < s.program.size) →
      (s.run reach .emptyBuffer roots₁).1 = ((s.addAll es).2.run reach .emptyBuffer roots₁).1 ∧
      (s.run reach .emptyBuffer roots₁).2.addAll es =
        ((s.addAll es).1, ((s.addAll es).2.run reach .emptyBuffer roots₁).2)) := by
  refine ⟨Session.run_append _ reach roots₁ hne, fun hs hr => ?_⟩
  have hgrows := (Session.extends_addAll hs.program es).1.toGrows
  have hadded : (s.addAll es).2 = { s with program := (s.addAll es).2.program } :=
    congrArg Prod.snd (s.addAll_of_program_eq rfl es)
  have hprogram : (s.run reach .emptyBuffer roots₁).2.program = s.program := by
    rw [Session.run, Session.perform_snd]
  have hfirst : (s.addAll es).2.run reach .emptyBuffer roots₁ =
      ((s.run reach .emptyBuffer roots₁).1, { (s.run reach .emptyBuffer roots₁).2 with
        program := (s.addAll es).2.program }) := by
    rw [← hs.run_grown hgrows hr reach .emptyBuffer, ← hadded]
  rw [hfirst]
  exact ⟨rfl, s.addAll_of_program_eq hprogram es⟩

/-- Two programs that print a letter each, in a session with the prelude. -/
theorem splitting_unobservable_of_prints :
    let s := ((Session.withPrelude 9).addAll [.callNamed "print" [.char 'a']]).2
    let es : List Expr := [.callNamed "print" [.char 'b']]
    ((Session.withPrelude 9).addAll [.callNamed "print" [.char 'a']]).1 = .ok [⟨14⟩] ∧
    (s.addAll es).1 = .ok [⟨17⟩] ∧
    ((s.addAll es).2.run 5 .emptyBuffer [⟨14⟩, ⟨17⟩]).1.output = "ab" ∧
    (s.addAll es).2.run 5 .emptyBuffer [⟨14⟩, ⟨17⟩] =
      Session.continued ((s.addAll es).2.run 5 .emptyBuffer [⟨14⟩])
        (((s.addAll es).2.run 5 .emptyBuffer [⟨14⟩]).2.run 5 .emptyBuffer [⟨17⟩]) ∧
    (s.run 5 .emptyBuffer [⟨14⟩]).1 = ((s.addAll es).2.run 5 .emptyBuffer [⟨14⟩]).1 ∧
    (s.run 5 .emptyBuffer [⟨14⟩]).2.addAll es =
      (.ok [⟨17⟩], ((s.addAll es).2.run 5 .emptyBuffer [⟨14⟩]).2) := by
  intro s es
  have hroots₁ :
      ((Session.withPrelude 9).addAll [.callNamed "print" [.char 'a']]).1 = .ok [⟨14⟩] := by
    decide +kernel
  have hroots₂ : (s.addAll es).1 = .ok [⟨17⟩] := by decide +kernel
  obtain ⟨hvalid, hlt⟩ := (Session.valid_withPrelude 9).addAll [.callNamed "print" [.char 'a']]
  have hne : [(⟨17⟩ : NodeId)] ≠ [] := List.cons_ne_nil _ _
  obtain ⟨hwhole, hlate⟩ := splitting_unobservable s es [⟨14⟩] hne 5
  have hlate' := hlate hvalid (hlt _ hroots₁)
  rw [hroots₂] at hlate'
  exact ⟨hroots₁, hroots₂, by decide +kernel, hwhole, hlate'⟩

end LazyExpr
