/-
LazyExpr/Proofs/Course.lean

The course that a step takes, and on what it depends.

A step of an evaluation asks its context for evaluations of other nodes.  Where a fault
came from cannot be read off the fault, so the step is looked at in other contexts too.
A revision of a context answers as the context does wherever there is a value, and as
it likes wherever there is none (`Revision`).  From one machine a step takes one course
in all revisions (`Course`): it has a value, which is the same in all of them; or it
stops on its own, and in the same way in all of them; or there is one question on which
it depends, and whatever a revision stops with when asked that, the step stops with.

A step may enter a call.  The question is then asked inside of the call, and the fault
takes the active calls with it on the way out.  The rules hold whatever causes a step has
on its own and whichever calls it enters.
-/
import LazyExpr.Proofs.Invariant

namespace LazyExpr

/-! ### What values have in common -/

/-- All values that a step may have are of some kind. -/
def Eval.Yields {α : Type} (P : α → Prop) (x : Eval α) : Prop := ∀ m a m', x m = .ok a m' → P a

namespace Eval.Yields

variable {α β : Type} {P : α → Prop} {Q : β → Prop}

theorem of_forall (h : ∀ a, P a) (x : Eval α) : x.Yields P := fun _ a _ _ => h a

theorem pure {a : α} (h : P a) : Eval.Yields P (Pure.pure a) := by
  rintro m _ _ ⟨⟩
  exact h

theorem throw (e : Stop) : Eval.Yields P (throw e) := by
  rintro m _ _ ⟨⟩

theorem bind {x : Eval α} {f : α → Eval β} (hx : x.Yields P) (hf : ∀ a, P a → (f a).Yields Q) :
    (x >>= f).Yields Q := by
  intro m b m' h
  obtain ⟨a, m₁, ha, hb⟩ := Eval.bind_eq_ok.1 h
  exact hf a (hx m a m₁ ha) m₁ b m' hb

theorem inScope {x : Eval α} (h : x.Yields P) (s : ScopeId) : (Eval.inScope s x).Yields P := by
  intro m a m' ha
  unfold Eval.inScope at ha
  dsimp only at ha
  split at ha
  · next hx =>
    cases ha
    exact h _ _ _ hx
  · cases ha

theorem inFrame {x : Eval α} (h : x.Yields P) (names : Names) (f : Frame) :
    (Eval.inFrame names f x).Yields P := by
  intro m a m' ha
  unfold Eval.inFrame at ha
  split at ha
  · cases ha
  · split at ha
    · next hx =>
      obtain ⟨_, _, _, hpure⟩ := Eval.bind_eq_ok.1 ha
      cases hpure
      exact h _ _ _ hx
    · obtain ⟨_, _, _, hthrow⟩ := Eval.bind_eq_ok.1 ha
      cases hthrow

end Eval.Yields

/-! ### Questions and revisions -/

/-- The evaluation of a node, suspended before or not, from a machine. -/
structure Question where
  suspended : Bool
  node : NodeId
  start : Machine

def Context.answer (c : Context) (q : Question) : EStateM.Result Stop Machine Value :=
  if q.suspended then c.resume q.node q.start else c.eval q.node q.start

/-- A context for the same program and with the same reach, in which every question that
has a value has the same one. -/
structure Revision (c : Context) where
  context : Context
  program_eq : context.program = c.program
  reach_eq : context.reach = c.reach
  answer_of_ok : ∀ {q v m}, c.answer q = .ok v m → context.answer q = .ok v m

namespace Revision

variable {c : Context}

/-- Nothing is answered in another way. -/
def self (c : Context) : Revision c := ⟨c, rfl, rfl, id⟩

end Revision

/-- Whatever is asked, the active calls are afterwards what they were. -/
structure Context.Balanced (c : Context) : Prop where
  eval : ∀ n m, ((c.eval n).after m).calls = m.calls
  resume : ∀ n m, ((c.resume n).after m).calls = m.calls

namespace Context.Balanced

variable {c : Context} {q : Question} {m : Machine}

theorem calls_of_ok (hc : c.Balanced) {v : Value} (h : c.answer q = .ok v m) :
    m.calls = q.start.calls := by
  unfold Context.answer at h
  split at h
  · rw [← hc.resume q.node q.start, Eval.after_of_ok h]
  · rw [← hc.eval q.node q.start, Eval.after_of_ok h]

theorem calls_of_error (hc : c.Balanced) {e : Stop} (h : c.answer q = .error e m) :
    m.calls = q.start.calls := by
  unfold Context.answer at h
  split at h
  · rw [← hc.resume q.node q.start, Eval.after_of_error h]
  · rw [← hc.eval q.node q.start, Eval.after_of_error h]

end Context.Balanced

/-! ### Courses -/

/-- What the results of a step in all revisions have in common, from a machine with the
active calls `cs`.  The step may raise the causes in `own`, which depend on the declared
types, and may enter calls with the frames in `enters`. -/
inductive Course (c : Context) (own : Types → Cause → Prop) (enters : Frame → Prop)
    (cs : CallStack) {α : Type} (r : Revision c → EStateM.Result Stop Machine α) : Prop
  /-- There is a value. -/
  | value (a : α) (m : Machine) : m.calls = cs → (∀ i, r i = .ok a m) → Course c own enters cs r
  /-- The step raises a fault. -/
  | raised (cause : Cause) (m : Machine) : own m.types cause →
      (∀ i, r i = .error (.fault (.ofCause cause)) m) → Course c own enters cs r
  /-- The step stops in another way. -/
  | halted (e : Stop) (m : Machine) : (∀ f, e ≠ .fault f) → m.calls = cs →
      (∀ i, r i = .error e m) → Course c own enters cs r
  /-- A call is one too many. -/
  | refused (f : Frame) (cause : Cause) (m : Machine) : enters f → cs.push f = .error cause →
      (∀ i, r i = .error (.fault (cs.attach c.program.names (.ofCause cause))) m) →
      Course c own enters cs r
  /-- A question has no value, and the step stops as its answer does. -/
  | asked (q : Question) : q.start.calls = cs → (∃ e m, c.answer q = .error e m) →
      (∀ i e m, i.context.answer q = .error e m → ∃ s, r i = .error e { m with scope := s }) →
      Course c own enters cs r
  /-- The same inside of a call, which the answer must not have left already. -/
  | entered (f : Frame) (q : Question) : enters f → cs.push f = .ok q.start.calls →
      (∃ e m, c.answer q = .error e m) →
      (∀ i e m, i.context.answer q = .error e m → m.calls = q.start.calls → ∃ s,
        r i = .error (e.mapFault (q.start.calls.attach c.program.names))
          { m with scope := s, calls := cs }) →
      Course c own enters cs r

/-- From every machine, the steps of a family take a course. -/
def Goes (c : Context) (own : Types → Cause → Prop) (enters : Frame → Prop) {α : Type}
    (x : Revision c → Eval α) : Prop :=
  ∀ m : Machine, Course c own enters m.calls fun i => x i m

variable {c : Context} {own : Types → Cause → Prop} {enters : Frame → Prop} {α β : Type}

/-- A step that stops as another one does, but perhaps in another scope, takes a course if
it does so from where the other one has a value. -/
theorem Course.follow {cs : CallStack} {r : Revision c → EStateM.Result Stop Machine α}
    {r' : Revision c → EStateM.Result Stop Machine β} (h : Course c own enters cs r)
    (scope : Machine → ScopeId)
    (hvalue : ∀ a m, m.calls = cs → (∀ i, r i = .ok a m) → Course c own enters cs r')
    (hstop : ∀ {i e m}, r i = .error e m → r' i = .error e { m with scope := scope m }) :
    Course c own enters cs r' := by
  cases h with
  | value a m hcs hr => exact hvalue a m hcs hr
  | raised cause m hown hr =>
    exact .raised cause { m with scope := scope m } hown fun i => hstop (hr i)
  | halted e m he hcs hr => exact .halted e { m with scope := scope m } he hcs fun i => hstop (hr i)
  | refused f cause m hf hpush hr => exact .refused f cause _ hf hpush fun i => hstop (hr i)
  | asked q hq hnone hr =>
    refine .asked q hq hnone fun i e m ha => ?_
    obtain ⟨s, hs⟩ := hr i e m ha
    have hstopped := hstop hs
    exact ⟨_, hstopped⟩
  | entered f q hf hpush hnone hr =>
    refine .entered f q hf hpush hnone fun i e m ha hm => ?_
    obtain ⟨s, hs⟩ := hr i e m ha hm
    have hstopped := hstop hs
    exact ⟨_, hstopped⟩

namespace Goes

/-! ### Steps that ask nothing -/

theorem const {x : Eval α} (h : ∀ m, ∃ a m', x m = .ok a m' ∧ m'.calls = m.calls) :
    Goes c own enters fun _ => x := by
  intro m
  obtain ⟨a, m', hx, hcs⟩ := h m
  exact .value a m' hcs fun _ => hx

theorem pure (a : α) : Goes c own enters fun _ => (Pure.pure a : Eval α) :=
  const fun m => ⟨a, m, rfl, rfl⟩

theorem raise {cause : Cause} (h : ∀ τ, own τ cause) :
    Goes c own enters fun _ => (Eval.raise cause : Eval α) :=
  fun m => .raised cause m (h m.types) fun _ => rfl

theorem halt {e : Stop} (h : ∀ f, e ≠ .fault f) :
    Goes c own enters fun _ => (throw e : Eval α) :=
  fun m => .halted e m h rfl fun _ => rfl

/-! ### Questions -/

/-- A step that asks one question and leaves it at that. -/
theorem question (hc : c.Balanced) (suspended : Bool) (n : NodeId) {x : Revision c → Eval Value}
    (hx : ∀ i m, x i m = i.context.answer ⟨suspended, n, m⟩) : Goes c own enters x := by
  intro m
  cases ha : c.answer ⟨suspended, n, m⟩ with
  | ok v m' =>
    refine .value v m' (hc.calls_of_ok ha) fun i => ?_
    rw [hx, i.answer_of_ok ha]
  | error e m' =>
    refine .asked ⟨suspended, n, m⟩ rfl ⟨e, m', ha⟩ fun i e' m' ha' => ⟨m'.scope, ?_⟩
    rw [hx, ha']

theorem eval (hc : c.Balanced) (n : NodeId) :
    Goes c own enters fun i => i.context.eval n :=
  question hc false n fun _ _ => rfl

theorem resume (hc : c.Balanced) (n : NodeId) :
    Goes c own enters fun i => i.context.resume n :=
  question hc true n fun _ _ => rfl

/-! ### Sequences -/

/-- The second step takes a course after every value that the first one may have. -/
theorem bind {x : Revision c → Eval α} {f : Revision c → α → Eval β} {P : α → Prop}
    (hx : Goes c own enters x) (hP : ∀ i, (x i).Yields P)
    (hf : ∀ a, P a → Goes c own enters fun i => f i a) :
    Goes c own enters fun i => x i >>= f i := by
  intro m
  refine (hx m).follow (·.scope) (fun a m' hcs hr => ?_) Eval.bind_of_error
  -- the second step starts where the first one has its value, with the same calls
  have hbind : (fun i => (x i >>= f i) m) = fun i => f i a m' :=
    funext fun i => Eval.bind_of_ok (hr i)
  rw [hbind, ← hcs]
  exact hf a (hP (.self c) m a m' (hr (.self c))) m'

/-! ### Scope and calls -/

theorem inScope (s : ScopeId) {x : Revision c → Eval α} (h : Goes c own enters x) :
    Goes c own enters fun i => Eval.inScope s (x i) := by
  intro m
  -- coming back, the scope is taken up again, and nothing else changes
  refine (h { m with scope := s }).follow (fun _ => m.scope) (fun a m' hcs hr => ?_)
    fun {i e m'} hx => ?_
  · refine .value a { m' with scope := m.scope } hcs fun i => ?_
    show Eval.inScope s (x i) m = _
    rw [Eval.inScope, hr]
  · show Eval.inScope s (x i) m = _
    rw [Eval.inScope, hx]

/-- A step inside of a call, if it has no causes of its own and enters no other call. -/
theorem inFrame {f : Frame} (hf : enters f) {x : Revision c → Eval α}
    (h : Goes c (fun _ _ => False) (fun _ => False) x) :
    Goes c own enters fun i => Eval.inFrame c.program.names f (x i) := by
  intro m
  rcases hpush : m.calls.push f with cause | cs
  · refine .refused f cause m hf hpush fun i => ?_
    simp only [Eval.inFrame, hpush]
  · cases h { m with calls := cs } with
    | value a m' hcs hr =>
      exact .value a { m' with calls := m.calls } rfl fun i =>
        Eval.inFrame_of_ok _ hpush (hr i) hcs
    | raised cause m' hown hr => exact hown.elim
    | halted e m' he hcs hr =>
      refine .halted e { m' with calls := m.calls } he rfl fun i => ?_
      refine (Eval.inFrame_of_error _ hpush (hr i) hcs).trans ?_
      cases e with
      | fault f => exact absurd rfl (he f)
      | _ => rfl
    | refused f cause m' hf' hpush' hr => exact hf'.elim
    | asked q hq hstop hr =>
      refine .entered f q hf (hpush.trans (congrArg Except.ok hq.symm)) hstop fun i e m' ha hm => ?_
      obtain ⟨s, hs⟩ := hr i e m' ha
      refine ⟨s, ?_⟩
      rw [hq]
      exact Eval.inFrame_of_error _ hpush hs (hm.trans hq)
    | entered f q hf' hpush' hstop hr => exact hf'.elim

end Goes

/-! ### Relays -/

/-- If a step stops with a fault, it is the fault of an evaluation that it asked for, just
as it came from there; and so it is in all revisions. -/
def Context.Relays (c : Context) {α : Type} (x : Context → Eval α) : Prop :=
  ∀ m f m', x c m = .error (.fault f) m' → ∃ q m₁, q.start.calls = m.calls ∧
    c.answer q = .error (.fault f) m₁ ∧
    ∀ (i : Revision c) g m₂, i.context.answer q = .error (.fault g) m₂ →
      ∃ m₃, x i.context m = .error (.fault g) m₃

/-- A step with no causes of its own that enters no call. -/
theorem Goes.relays {x : Context → Eval α}
    (h : Goes c (fun _ _ => False) (fun _ => False) fun i => x i.context) : c.Relays x := by
  intro m f m' hx
  cases h m with
  | value a m₁ hcs hr => cases hx.symm.trans (hr (.self c))
  | raised cause m₁ hown hr => exact hown.elim
  | halted e m₁ he hcs hr =>
    cases hx.symm.trans (hr (.self c))
    exact absurd rfl (he f)
  | refused f cause m₁ hf hpush hr => exact hf.elim
  | asked q hq hstop hr =>
    obtain ⟨e, m₁, ha⟩ := hstop
    obtain ⟨s, hs⟩ := hr (.self c) e m₁ ha
    cases hx.symm.trans hs
    refine ⟨q, m₁, hq, ha, fun i g m₂ hi => ?_⟩
    obtain ⟨s', hs'⟩ := hr i _ m₂ hi
    exact ⟨_, hs'⟩
  | entered f q hf hpush hstop hr => exact hf.elim

end LazyExpr
