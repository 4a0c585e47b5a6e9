/-
LazyExpr/Proofs/Trail.lean

The way a fault took.

When an evaluation fails, there are node evaluations that were active when the fault
arose: the failing one, a node evaluation nested in it that failed, one nested in that,
and so on to the one where the fault arose.  What is nested is a part of the node, the
body of the function that it calls, or a suspended node that it looks at.  These make up
the trail (`Trail`).

Which nested evaluation a node fails by is said without a look at its fault.  It is the
one that decides: whatever cause it failed with, the node would fail with that cause
(`FailsBy`), other failing evaluations being as they may.  If there is none, the node
fails on its own (`FailsAlone`).  There is always exactly one such way (`trail_unique`,
`exists_trail`).

What happens to the fault on that way is then read off each node (`Account`): the last
node raises it, or is refused a call, and every other one passes it on from the next,
with the node's own span if there is none yet; if the next is inside of a call of the
node, the active calls are attached as well.
-/
import LazyExpr.Proofs.Call
import LazyExpr.Proofs.CallLimit
import LazyExpr.Proofs.Origin

namespace LazyExpr

theorem Eval.locate_of_ok {α : Type} {x : Eval α} {v : α} {m m' : Machine} (span : Span)
    (h : x m = .ok v m') : Eval.locate span x m = .ok v m' := by
  rw [Eval.locate, h]

theorem Eval.locate_of_error {α : Type} {x : Eval α} {e : Stop} {m m' : Machine} (span : Span)
    (h : x m = .error e m') : Eval.locate span x m = .error (e.mapFault (·.placedAt span)) m' := by
  rw [Eval.locate, h]

/-! ### What a node fails by -/

namespace Context

/-- The evaluation of a node fails because a question has no value: whatever cause that
has in a revision, which leaves the calls as it found them, the evaluation fails with it
there. -/
structure FailsBy (c : Context) (n : NodeId) (m : Machine) (q : Question) : Prop where
  fails : ∃ f m', c.answer q = .error (.fault f) m'
  decides : ∀ (i : Revision c) f m', i.context.answer q = .error (.fault f) m' →
    m'.calls = q.start.calls →
    ∃ f' m₁, i.context.evalNode n m = .error (.fault f') m₁ ∧ f'.cause = f.cause

/-- The evaluation of a node is the same, whatever else has failed and how. -/
def FailsAlone (c : Context) (n : NodeId) (m : Machine) : Prop :=
  ∀ i : Revision c, i.context.evalNode n m = c.evalNode n m

/-- The context with other answers to some questions, which fail with given causes. -/
def failing (c : Context) (fails : Question → Option Cause) : Context where
  program := c.program
  reach := c.reach
  eval n m := match fails ⟨false, n, m⟩ with
    | some cause => .error (.fault (.ofCause cause)) m
    | none => c.eval n m
  resume n m := match fails ⟨true, n, m⟩ with
    | some cause => .error (.fault (.ofCause cause)) m
    | none => c.resume n m

theorem answer_failing (c : Context) (fails : Question → Option Cause) (q : Question) :
    (c.failing fails).answer q = match fails q with
      | some cause => .error (.fault (.ofCause cause)) q.start
      | none => c.answer q := by
  obtain ⟨suspended, n, m⟩ := q
  cases suspended with
  | false => rfl
  | true => rfl

end Context

/-- Questions that fail anyway may fail in another way. -/
def Revision.failing (c : Context) (fails : Question → Option Cause)
    (h : ∀ q, fails q ≠ none → ∃ e m, c.answer q = .error e m) : Revision c where
  context := c.failing fails
  program_eq := rfl
  reach_eq := rfl
  answer_of_ok := by
    intro q v m ha
    rw [Context.answer_failing]
    cases hq : fails q with
    | none => exact ha
    | some cause =>
      obtain ⟨e, m', he⟩ := h q (by simp [hq])
      cases he.symm.trans ha

/-- Two questions that fail can fail with any two causes. -/
theorem Revision.exists_failing {c : Context} {q q' : Question}
    (hq : ∃ e m, c.answer q = .error e m) (hq' : ∃ e m, c.answer q' = .error e m)
    (cause cause' : Cause) (h : q = q' → cause = cause') :
    ∃ i : Revision c, i.context.answer q = .error (.fault (.ofCause cause)) q.start ∧
      i.context.answer q' = .error (.fault (.ofCause cause')) q'.start := by
  classical
  let fails : Question → Option Cause := fun x =>
    if x = q then some cause else if x = q' then some cause' else none
  have hfails : ∀ x, fails x ≠ none → ∃ e m, c.answer x = .error e m := by
    intro x hx
    by_cases hxq : x = q
    · exact hxq ▸ hq
    · by_cases hxq' : x = q'
      · exact hxq' ▸ hq'
      · exact absurd (by simp [fails, hxq, hxq']) hx
  have hcause : fails q = some cause := by simp [fails]
  have hcause' : fails q' = some cause' := by
    by_cases hqq : q' = q
    · simp [fails, hqq, h hqq.symm]
    · simp [fails, hqq]
  refine ⟨.failing c fails hfails, ?_, ?_⟩
  · show (c.failing fails).answer q = _
    rw [Context.answer_failing, hcause]
  · show (c.failing fails).answer q' = _
    rw [Context.answer_failing, hcause']

namespace Context.FailsBy

variable {c : Context} {n : NodeId} {m : Machine} {q q' : Question}

theorem fails_error (h : c.FailsBy n m q) : ∃ e m, c.answer q = .error e m := by
  obtain ⟨f, m', hf⟩ := h.fails
  exact ⟨.fault f, m', hf⟩

/-- A node that fails by a question would fail with two different causes if the question
did. -/
theorem not_alone (h : c.FailsBy n m q) : ¬ c.FailsAlone n m := by
  intro halone
  have hall : ∀ cause, ∃ f m', c.evalNode n m = .error (.fault f) m' ∧ f.cause = cause := by
    intro cause
    obtain ⟨i, hi, -⟩ := Revision.exists_failing h.fails_error h.fails_error cause cause
      fun _ => rfl
    rw [← halone i]
    exact h.decides i _ _ hi rfl
  obtain ⟨f, m', hf, hcause⟩ := hall .divisionByZero
  obtain ⟨f', m'', hf', hcause'⟩ := hall .moduloByZero
  cases hf.symm.trans hf'
  cases hcause.symm.trans hcause'

theorem unique (h : c.FailsBy n m q) (h' : c.FailsBy n m q') : q = q' := by
  by_contra hne
  -- where the two fail with different causes, the node would fail with both
  obtain ⟨i, hi, hi'⟩ := Revision.exists_failing h.fails_error h'.fails_error
    .divisionByZero .moduloByZero fun heq => absurd heq hne
  obtain ⟨f, m', hf, hcause⟩ := h.decides i _ _ hi rfl
  obtain ⟨f', m'', hf', hcause'⟩ := h'.decides i _ _ hi' rfl
  cases hf.symm.trans hf'
  cases hcause.symm.trans hcause'

end Context.FailsBy

/-! ### What happens to a fault at a node -/

/-- An evaluation of a node from a machine, and the fault that it failed with. -/
structure Attempt where
  node : Node
  start : Machine
  fault : Fault

namespace Attempt

/-- The fault arose at the node: it has a cause of its own, or is refused a call. -/
inductive Raises (p : Program) (τ : Types) (a : Attempt) : Prop
  | own (cause : Cause) : cause.Arises p τ →
      a.fault = (Fault.ofCause cause).placedAt a.node.span → Raises p τ a
  | refused (f : Frame) (cause : Cause) : a.node.Calls f → a.start.calls.push f = .error cause →
      a.fault = (a.start.calls.attach p.names (.ofCause cause)).placedAt a.node.span →
      Raises p τ a

/-- The fault arose in another attempt, from which it is passed on: one with the same
active calls, or one inside of the call that the node stands for. -/
inductive Passes (p : Program) (a b : Attempt) : Prop
  | outside : b.start.calls = a.start.calls → a.fault = b.fault.placedAt a.node.span → Passes p a b
  | inside (f : Frame) : a.node.Calls f → a.start.calls.push f = .ok b.start.calls →
      a.fault = (b.start.calls.attach p.names b.fault).placedAt a.node.span → Passes p a b

end Attempt

namespace Context

variable {c : Context} {n : NodeId} {m m' : Machine} {a : Node} {f : Fault}

theorem node?_of_fault (h : c.evalNode n m = .error (.fault f) m') :
    ∃ a, c.program.node? n = some a := by
  cases ha : c.program.node? n with
  | some a => exact ⟨a, rfl⟩
  | none =>
    have hnode : c.node n m = .error .dangling m := by
      rw [node, ha]
      rfl
    have hnone : c.evalNode n m = .error .dangling m := Eval.bind_of_error hnode
    cases h.symm.trans hnone

/-- A node fails on its own, or by a question of which it passes on the fault. -/
theorem fault_cases (hc : c.Balanced) (ha : c.program.node? n = some a)
    (h : c.evalNode n m = .error (.fault f) m') :
    (c.FailsAlone n m ∧ Attempt.Raises c.program m'.types ⟨a, m, f⟩) ∨
      ∃ q g m₁, c.FailsBy n m q ∧ c.answer q = .error (.fault g) m₁ ∧ m'.types = m₁.types ∧
        ∀ b, Attempt.Passes c.program ⟨a, m, f⟩ ⟨b, q.start, g⟩ := by
  have hmem : a ∈ c.program.nodes := Array.mem_of_getElem? ha
  -- whatever the kind of the node stops with, the node stops with, at its own place
  have hplaced : ∀ {i : Revision c} {e m₁}, i.context.evalKind a.span a.kind m = .error e m₁ →
      i.context.evalNode n m = .error (e.mapFault (·.placedAt a.span)) m₁ := by
    intro i e m₁ hi
    have hnode : i.context.program.node? n = some a := by rw [i.program_eq, ha]
    exact (evalNode_apply hnode).trans (Eval.locate_of_error a.span hi)
  cases Goes.evalKind hc hmem m with
  | value v m₁ _ hr =>
    cases h.symm.trans ((evalNode_apply ha).trans (Eval.locate_of_ok a.span (hr (.self c))))
  | raised cause m₁ hown hr =>
    cases h.symm.trans (hplaced (hr (.self c)))
    refine .inl ⟨fun i => ?_, .own cause hown rfl⟩
    exact (hplaced (hr i)).trans (hplaced (hr (.self c))).symm
  | halted e m₁ he _ hr =>
    have hhalted := h.symm.trans (hplaced (hr (.self c)))
    cases e with
    | fault f => exact absurd rfl (he f)
    | _ => cases hhalted
  | refused f cause m₁ hf hpush hr =>
    cases h.symm.trans (hplaced (hr (.self c)))
    refine .inl ⟨fun i => ?_, .refused f cause hf hpush rfl⟩
    exact (hplaced (hr i)).trans (hplaced (hr (.self c))).symm
  | asked q hq hnone hr =>
    obtain ⟨e, m₁, hanswer⟩ := hnone
    obtain ⟨s, hs⟩ := hr (.self c) e m₁ hanswer
    have hpassed := h.symm.trans (hplaced hs)
    cases e with
    | fault g =>
      cases hpassed
      refine .inr ⟨q, g, m₁, ⟨⟨g, m₁, hanswer⟩, fun i g' m' hi _ => ?_⟩, hanswer, rfl,
        fun b => .outside hq rfl⟩
      obtain ⟨s', hs'⟩ := hr i _ m' hi
      exact ⟨_, _, hplaced hs', by simp⟩
    | _ => cases hpassed
  | entered f q hf hpush hnone hr =>
    obtain ⟨e, m₁, hanswer⟩ := hnone
    obtain ⟨s, hs⟩ := hr (.self c) e m₁ hanswer (hc.calls_of_error hanswer)
    have hpassed := h.symm.trans (hplaced hs)
    cases e with
    | fault g =>
      cases hpassed
      refine .inr ⟨q, g, m₁, ⟨⟨g, m₁, hanswer⟩, fun i g' m' hi hm' => ?_⟩, hanswer, rfl,
        fun b => .inside f hf hpush rfl⟩
      obtain ⟨s', hs'⟩ := hr i _ m' hi hm'
      exact ⟨_, _, hplaced hs', by simp⟩
    | _ => cases hpassed

end Context

/-! ### Trails -/

/-- The node evaluations that were active when the fault of a failing evaluation arose,
from the outermost on, with the machines that they started from and the faults that they
failed with. -/
inductive Trail (p : Program) (fuel : Nat) :
    (reach rest : Nat) → NodeId → Machine → List Attempt → Prop
  /-- The fault arose at the node itself. -/
  | alone {reach rest n m a f m'} : p.node? n = some a →
      (p.context fuel reach rest).evalNode n m = .error (.fault f) m' →
      (p.context fuel reach rest).FailsAlone n m →
      Trail p fuel reach (rest + 1) n m [⟨a, m, f⟩]
  /-- The fault arose in the evaluation of another node. -/
  | nested {reach rest n m a f m' n₁ m₁ t} : p.node? n = some a →
      (p.context fuel reach rest).evalNode n m = .error (.fault f) m' →
      (p.context fuel reach rest).FailsBy n m ⟨false, n₁, m₁⟩ →
      Trail p fuel reach rest n₁ m₁ t → Trail p fuel reach (rest + 1) n m (⟨a, m, f⟩ :: t)
  /-- The fault arose in the evaluation of a suspended node. -/
  | resumed {reach rest n m a f m' n₁ m₁ t} : p.node? n = some a →
      (p.context fuel (reach + 1) rest).evalNode n m = .error (.fault f) m' →
      (p.context fuel (reach + 1) rest).FailsBy n m ⟨true, n₁, m₁⟩ →
      Trail p fuel reach fuel n₁ m₁ t → Trail p fuel (reach + 1) (rest + 1) n m (⟨a, m, f⟩ :: t)

/-- What becomes of a fault along a trail: the last attempt, which is its origin, raises
it, and every other one passes on the fault of the next. -/
inductive Account (p : Program) (τ : Types) (origin : Attempt) : List Attempt → Prop
  | raised : origin.Raises p τ → Account p τ origin [origin]
  | passed {a b t} : a.Passes p b → Account p τ origin (b :: t) → Account p τ origin (a :: b :: t)

variable {p : Program} {fuel reach rest : Nat} {n : NodeId} {m m' : Machine} {f : Fault}
variable {t t' : List Attempt}

/-- A failing evaluation has one trail at most. -/
theorem trail_unique (h : Trail p fuel reach rest n m t) (h' : Trail p fuel reach rest n m t') :
    t = t' := by
  -- two trails start alike, since a node fails on its own or by one question only
  induction h generalizing t' with
  | alone ha hf halone =>
    cases h' with
    | alone ha' hf' halone' =>
      cases ha.symm.trans ha'
      cases hf.symm.trans hf'
      rfl
    | nested _ _ hby => exact absurd halone hby.not_alone
    | resumed _ _ hby => exact absurd halone hby.not_alone
  | nested ha hf hby _ ih =>
    cases h' with
    | alone _ _ halone => exact absurd halone hby.not_alone
    | nested ha' hf' hby' ht' =>
      cases ha.symm.trans ha'
      cases hf.symm.trans hf'
      cases hby.unique hby'
      rw [ih ht']
    | resumed _ _ hby' => cases hby.unique hby'
  | resumed ha hf hby _ ih =>
    cases h' with
    | alone _ _ halone => exact absurd halone hby.not_alone
    | nested _ _ hby' => cases hby.unique hby'
    | resumed ha' hf' hby' ht' =>
      cases ha.symm.trans ha'
      cases hf.symm.trans hf'
      cases hby.unique hby'
      rw [ih ht']

theorem Program.context_balanced (p : Program) (fuel reach rest : Nat) :
    (p.context fuel reach rest).Balanced where
  eval n m := congrArg Control.calls (control_eval n)
  resume n m := by
    cases reach with
    | zero => rfl
    | succ reach =>
      show (((p.context fuel reach fuel).eval n).after m).calls = m.calls
      exact congrArg Control.calls (control_eval n)

/-- A trail that starts with a fault, with an account of how it came about. -/
def Accounted (p : Program) (fuel reach rest : Nat) (n : NodeId) (m : Machine) (f : Fault)
    (τ : Types) : Prop :=
  ∃ a t origin, Trail p fuel reach rest n m (⟨a, m, f⟩ :: t) ∧
    Account p τ origin (⟨a, m, f⟩ :: t)

/-- There is a trail from an evaluation if there are trails from what is nested in it. -/
theorem accounted_of_nested
    (heval : ∀ {n m f m'}, (p.context fuel reach rest).eval n m = .error (.fault f) m' →
      Accounted p fuel reach rest n m f m'.types)
    (hresume : ∀ {n m f m'}, (p.context fuel reach rest).resume n m = .error (.fault f) m' →
      ∃ reach', reach = reach' + 1 ∧ Accounted p fuel reach' fuel n m f m'.types)
    (h : (p.context fuel reach rest).evalNode n m = .error (.fault f) m') :
    Accounted p fuel reach (rest + 1) n m f m'.types := by
  obtain ⟨a, ha⟩ := Context.node?_of_fault h
  rcases Context.fault_cases (p.context_balanced fuel reach rest) ha h with
    ⟨halone, hraises⟩ | ⟨q, g, m₁, hby, hanswer, htypes, hpasses⟩
  · exact ⟨a, [], _, .alone ha h halone, .raised hraises⟩
  · rw [htypes]
    obtain ⟨suspended, n₁, start⟩ := q
    cases suspended with
    | false =>
      obtain ⟨b, t, origin, ht, haccount⟩ := heval hanswer
      exact ⟨a, _, origin, .nested ha h hby ht, .passed (hpasses b) haccount⟩
    | true =>
      obtain ⟨reach', rfl, b, t, origin, ht, haccount⟩ := hresume hanswer
      exact ⟨a, _, origin, .resumed ha h hby ht, .passed (hpasses b) haccount⟩

theorem accounted_of_fault (h : (p.context fuel reach rest).eval n m = .error (.fault f) m') :
    Accounted p fuel reach rest n m f m'.types := by
  -- a nested node has less fuel and the same reach, a suspended one a smaller reach
  induction reach generalizing rest n m f m' with
  | zero =>
    induction rest generalizing n m f m' with
    | zero => cases h
    | succ rest ih => exact accounted_of_nested ih (fun hresume => by cases hresume) h
  | succ reach ihreach =>
    induction rest generalizing n m f m' with
    | zero => cases h
    | succ rest ih =>
      refine accounted_of_nested ih (fun {n m f m'} hresume => ⟨reach, rfl, ?_⟩) h
      -- a suspended node has all the fuel again
      have hstart : (p.context fuel reach fuel).eval n m = .error (.fault f) m' := hresume
      exact ihreach hstart

/-- A failing evaluation has one trail, and what becomes of the fault on it is known. -/
theorem exists_trail (h : (p.context fuel reach rest).eval n m = .error (.fault f) m') :
    ∃ a t origin, (∀ t', Trail p fuel reach rest n m t' ↔ t' = ⟨a, m, f⟩ :: t) ∧
      Account p m'.types origin (⟨a, m, f⟩ :: t) := by
  obtain ⟨a, t, origin, ht, haccount⟩ := accounted_of_fault h
  refine ⟨a, t, origin, fun t' => ⟨fun ht' => trail_unique ht' ht, ?_⟩, haccount⟩
  rintro rfl
  exact ht

/-! ### Accounts -/

/-- What is passed on keeps its cause. -/
theorem Attempt.Passes.cause_eq {a b : Attempt} (h : a.Passes p b) :
    a.fault.cause = b.fault.cause := by
  cases h with
  | outside _ hf => rw [hf, Fault.cause_placedAt]
  | inside f _ _ hf => rw [hf, Fault.cause_placedAt, CallStack.cause_attach]

theorem Attempt.Passes.message_eq {a b : Attempt} (h : a.Passes p b) :
    a.fault.message = b.fault.message := by
  cases h with
  | outside _ hf => rw [hf, Fault.message_placedAt]
  | inside f _ _ hf => rw [hf, Fault.message_placedAt, CallStack.message_attach]

/-- A fault is worded when it arises, by its cause. -/
theorem Attempt.Raises.message_eq {a : Attempt} {τ : Types} (h : a.Raises p τ) :
    a.fault.message = a.fault.cause.message := by
  cases h with
  | own cause _ hf => rw [hf, Fault.message_placedAt, Fault.cause_placedAt, Fault.ofCause]
  | refused f cause _ _ hf =>
    rw [hf, Fault.message_placedAt, Fault.cause_placedAt, CallStack.message_attach,
      CallStack.cause_attach, Fault.ofCause]

namespace Account

variable {τ : Types} {origin : Attempt}

theorem getLast?_eq (h : Account p τ origin t) : t.getLast? = some origin := by
  induction h with
  | raised _ => rfl
  | passed _ _ ih => rw [List.getLast?_cons_cons, ih]

theorem raises (h : Account p τ origin t) : origin.Raises p τ := by
  induction h with
  | raised hraises => exact hraises
  | passed _ _ ih => exact ih

theorem cause_eq (h : Account p τ origin t) : ∀ x ∈ t, x.fault.cause = origin.fault.cause := by
  induction h with
  | raised _ => simp
  | passed hpasses _ ih =>
    refine List.forall_mem_cons.2 ⟨?_, ih⟩
    rw [hpasses.cause_eq, ih _ List.mem_cons_self]

/-- No node on the way changes the wording, so it is that of the cause all the way. -/
theorem message_eq (h : Account p τ origin t) :
    ∀ x ∈ t, x.fault.message = x.fault.cause.message := by
  induction h with
  | raised hraises => simpa using hraises.message_eq
  | passed hpasses _ ih =>
    refine List.forall_mem_cons.2 ⟨?_, ih⟩
    rw [hpasses.message_eq, hpasses.cause_eq, ih _ List.mem_cons_self]

end Account

/-! ### Runs -/

/-- A run fails with one of its roots, after those before it. -/
theorem runFrom_eq_error {c : Context} {v : Value} {roots : List NodeId} {e : Stop}
    (h : runFrom c v roots m = .error e m') :
    ∃ before r after w m₀, roots = before ++ r :: after ∧ runFrom c v before m = .ok w m₀ ∧
      c.eval r m₀ = .error e m' := by
  induction roots generalizing v m with
  | nil => cases h
  | cons r roots ih =>
    cases hr : c.eval r m with
    | ok w m₁ =>
      have hrest : runFrom c w roots m₁ = .error e m' := (Eval.bind_of_ok hr).symm.trans h
      obtain ⟨before, r', after, w', m₀, rfl, hbefore, hr'⟩ := ih hrest
      exact ⟨r :: before, r', after, w', m₀, rfl, (Eval.bind_of_ok hr).trans hbefore, hr'⟩
    | error e' m₁ =>
      cases (Eval.bind_of_error hr).symm.trans h
      exact ⟨[], r, roots, v, m, rfl, rfl, hr⟩

theorem calls_of_runFrom {c : Context} (hc : c.Balanced) {v w : Value} {roots : List NodeId}
    (h : runFrom c v roots m = .ok w m') : m'.calls = m.calls := by
  induction roots generalizing v m with
  | nil =>
    cases h
    rfl
  | cons r roots ih =>
    obtain ⟨u, m₁, hr, hrest⟩ := Eval.bind_eq_ok.1 h
    rw [ih hrest, ← hc.eval r m, Eval.after_of_ok hr]

end LazyExpr
