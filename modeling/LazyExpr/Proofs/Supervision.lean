/-
LazyExpr/Proofs/Supervision.lean

Evaluation under supervision.

A supervisor is handed every evaluation of a node, nested ones and suspended ones
included, and may do with it what it likes: look at the machine before, change what
comes out, not run it at all.  The supervised evaluator is the evaluator itself with
the supervisor put around each node; how a node of each kind is evaluated is
`Context.evalNode` in both.

What never happens inside a run cannot be said of its result alone.  It is said with
supervisors: one that would do anything at all if it did happen makes no difference.
A supervisor which cannot be noticed at any single node (`Supervisor.Transparent`)
cannot be noticed in a whole evaluation (`Simulation.supervised_agree`).
-/
import LazyExpr.Proofs.Invariant

namespace LazyExpr

/-- What is done with the evaluation of a node. -/
abbrev Supervisor := NodeId → Eval Value → Eval Value

namespace Supervisor

variable (v : Supervisor)

/-! ### The supervised evaluator -/

/-- Evaluate a node under supervision, suspended nodes by `resume`. -/
def evalWith (p : Program) (reach : Nat) (resume : NodeId → Eval Value) :
    (fuel : Nat) → NodeId → Eval Value
  | 0, _ => throw .outOfFuel
  | fuel + 1, id => v id (Context.evalNode ⟨p, reach, evalWith p reach resume fuel, resume⟩ id)

/-- Evaluate a node and all that is suspended under supervision. -/
def eval (p : Program) (fuel : Nat) : (reach : Nat) → NodeId → Eval Value
  | 0, _ => throw .outOfReach
  | reach + 1, id => v.evalWith p reach (eval p fuel reach) fuel id

/-- The context of every step of a supervised evaluation. -/
def context (p : Program) (fuel reach rest : Nat) : Context :=
  ⟨p, reach, v.evalWith p reach (v.eval p fuel reach) rest, v.eval p fuel reach⟩

/-- The supervisor makes no difference to evaluations that agree. -/
def Transparent {p p' : Program} (S : Simulation p p') : Prop :=
  ∀ {n n' : NodeId} {k k' : Control} {x y : Eval Value}, S.node n n' →
    S.calls k.calls k'.calls → S.Agree k k' S.OnValue x y → S.Agree k k' S.OnValue x (v n' y)

end Supervisor

/-! ### Transparency -/

namespace Simulation

variable {p p' : Program} {S : Simulation p p'} {v : Supervisor} {fuel reach : Nat}
variable {s s' : ScopeId} {cs cs' : CallStack}

/-- The induction is on the fuel, and the supervisor is met once in each step. -/
theorem supervisedWith_agree (P : S.Programs) (hv : v.Transparent S)
    {resume resume' : NodeId → Eval Value}
    (hresume : ∀ {n n' s s' d d'}, S.suspended n n' → S.scope s s' → S.calls d d' →
      S.Agree ⟨s, d⟩ ⟨s', d'⟩ S.OnValue (resume n) (resume' n'))
    (hs : S.scope s s') (hcs : S.calls cs cs') {n n' : NodeId} (hn : S.node n n') :
    S.Agree ⟨s, cs⟩ ⟨s', cs'⟩ S.OnValue (evalWith p reach resume fuel n)
      (v.evalWith p' reach resume' fuel n') := by
  induction fuel generalizing cs cs' n n' s s' with
  | zero => exact fun _ _ hm => .error (P.fuel hm.calls) hm
  | succ fuel ih =>
    have hreach : S.Bounds .outOfReach reach reach := .inl rfl
    have hc : S.Contexts ⟨s, cs⟩ ⟨s', cs'⟩ S.node _ _ :=
      P.contexts hreach (fun hn hs hd => ih hs hd hn) hresume hs hcs
    exact hv hn hcs (evalNode_agree hc (P.node hn))

theorem supervised_agree (P : S.Programs) (hv : v.Transparent S) (hs : S.scope s s')
    (hcs : S.calls cs cs') {n n' : NodeId} (hn : S.node n n') :
    S.Agree ⟨s, cs⟩ ⟨s', cs'⟩ S.OnValue (LazyExpr.eval p fuel reach n)
      (v.eval p' fuel reach n') := by
  induction reach generalizing cs cs' n n' s s' with
  | zero => exact fun _ _ hm => .error (S.reach hm.calls) hm
  | succ reach ih =>
    exact supervisedWith_agree P hv (fun hn hs hd => ih hs hd (P.suspended hn)) hs hcs hn

variable (fuel reach) in
theorem supervised_contexts (P : S.Programs) (hv : v.Transparent S) (rest : Nat) {k k' : Control}
    (hs : S.scope k.scope k'.scope) (hcs : S.calls k.calls k'.calls) :
    S.Contexts k k' S.node (p.context fuel reach rest) (v.context p' fuel reach rest) := by
  have hresume : ∀ {n n' s s' d d'}, S.suspended n n' → S.scope s s' → S.calls d d' →
      S.Agree ⟨s, d⟩ ⟨s', d'⟩ S.OnValue (LazyExpr.eval p fuel reach n) (v.eval p' fuel reach n') :=
    fun hn hs hd => supervised_agree P hv hs hd (P.suspended hn)
  exact P.contexts (.inl rfl) (fun hn hs hd => supervisedWith_agree P hv hresume hs hd hn) hresume
    hs hcs

end Simulation

end LazyExpr
