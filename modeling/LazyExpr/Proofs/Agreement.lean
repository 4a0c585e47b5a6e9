/-
LazyExpr/Proofs/Agreement.lean

Whole evaluations under a simulation.

What `Lockstep` says of the functions of the evaluator is said here for simulations: of two
contexts that agree, and of two programs whose nodes lead to nodes that are alike
(`Simulation.Programs`).  `evalNode_agree` is the one step; `eval_agree` is the induction over
fuel and reach.
-/
import LazyExpr.Proofs.Simulation

namespace LazyExpr

namespace Simulation

variable {p p' : Program}

/-- References into the programs lead to things that are alike, or both to nothing. -/
abbrev Present (S : Simulation p p') {α β : Type} (A : α → β → Prop) :
    Option α → Option β → Prop :=
  LazyExpr.Present S.judgement.dangles A

/-- Two contexts agree on everything that the evaluation of one node needs. -/
structure Contexts (S : Simulation p p') (k k' : Control) (child : NodeId → NodeId → Prop)
    (c c' : Context) : Prop where
  left : c.program = p
  right : c'.program = p'
  reach : S.Bounds .outOfReach c.reach c'.reach
  scope : S.scope k.scope k'.scope
  calls : S.calls k.calls k'.calls
  /-- What is called is looked at before it is evaluated. -/
  node : ∀ {n n'}, child n n' → S.Present (S.OnNode S.node) (p.node? n) (p'.node? n')
  number : ∀ {a a'}, S.number a a' → S.Present (· = ·) (p.number? a) (p'.number? a')
  eval : ∀ {n n'}, child n n' → S.Agree k k' S.OnValue (c.eval n) (c'.eval n')
  body : ∀ {n n' s s' f f' d d'}, S.node n n' → S.scope s s' → k.calls.push f = .ok d →
    k'.calls.push f' = .ok d' → S.calls d d' →
    S.Agree ⟨s, d⟩ ⟨s', d'⟩ S.OnValue (c.eval n) (c'.eval n')
  resume : ∀ {n n' s s' d d'}, S.suspended n n' → S.scope s s' → S.calls d d' →
    S.Agree ⟨s, d⟩ ⟨s', d'⟩ S.OnValue (c.resume n) (c'.resume n')

variable {S : Simulation p p'} {k k' : Control} {child : NodeId → NodeId → Prop}
variable {c c' : Context} {s s' : ScopeId} {cs cs' : CallStack}

theorem Contexts.judged (hc : S.Contexts k k' child c c') :
    S.judgement.Contexts (S.stance k k') child (fun _ => c) fun _ => c' where
  left _ := hc.left
  right _ := hc.right
  reach := hc.reach
  resume hn hs hk := hc.resume hn hs hk
  works := trivial
  current := hc.scope
  fit := hc.calls
  node := hc.node
  number := hc.number
  eval hn := hc.eval hn
  body := by
    rintro _ n n' s s' f f' _ hn hs ⟨d, d', hd, hd', hcalls, rfl⟩
    exact hc.body hn hs hd hd' hcalls

/-! ### Values -/

/-- Thunks have scopes of their own, so the current ones do not matter. -/
theorem force_agree (hc : S.Contexts k k' child c c') {l l' : Control}
    (hd : S.calls l.calls l'.calls) {t t' : Thunk} (ht : S.OnThunk t t') :
    S.Agree l l' S.OnValue (c.force t) (c'.force t') :=
  hc.judged.force (w := ()) (k := S.stance l l') hd (Likeness.onThunk_iff.1 ht)

theorem body_agree (hc : S.Contexts k k' child c c') {f f' : Function} (hs : S.scope s s')
    {l l' : Control} (hcalls : S.calls l.calls l'.calls)
    (hf : S.Agree ⟨s, l.calls⟩ ⟨s', l'.calls⟩ S.OnValue (c.eval f.body) (c'.eval f'.body)) :
    S.Agree l l' S.OnValue (c.body f s) (c'.body f' s') :=
  hc.judged.body_of_eval (w := ()) (k := S.stance l l') hcalls hs hf

theorem display_text_agree (hc : S.Contexts k k' child c c') {v v' : Value}
    (hv : S.OnValue v v') : S.Agree k k' (· = ·) (c.display v) (c'.display v') :=
  hc.judged.display (w := ()) (k := S.stance k k') hc.calls hv

theorem equal_agree (hc : S.Contexts k k' child c c') {v v' u u' : Value} (hv : S.OnValue v v')
    (hu : S.OnValue u u') :
    S.Agree k k' (· = ·) (v.equal c.force c.reach u) (v'.equal c'.force c'.reach u') :=
  Judgement.equal_agree (w := ()) hc.judged.reach (hc.judged.forces hc.judged.fit) hv hu

theorem apply_agree (hc : S.Contexts k k' child c c') (op : BinaryOp) {v v' u u' : Value}
    (hv : S.OnValue v v') (hu : S.OnValue u u') :
    S.Agree k k' S.OnValue (op.apply c.force c.reach v u) (op.apply c'.force c'.reach v' u') :=
  Judgement.apply_agree (w := ()) trivial hc.judged.reach (hc.judged.forces hc.judged.fit) op hv hu

/-! ### Nodes -/

theorem evalNode_agree (hc : S.Contexts k k' child c c') {n n' : NodeId}
    (h : S.Present (S.OnNode child) (p.node? n) (p'.node? n')) :
    S.Agree k k' S.OnValue (c.evalNode n) (c'.evalNode n') :=
  hc.judged.evalNode (w := ()) S.judgement_locates (fun _ _ => trivial) (fun _ => trivial) h

theorem run_agree (hc : S.Contexts k k' child c c') {rs rs' : List NodeId}
    (h : List.Forall₂ child rs rs') : S.Agree k k' S.OnValue (run c rs) (run c' rs') :=
  hc.judged.run (w := ()) h

/-! ### Whole evaluations -/

/-- The nodes of two programs lead to nodes that are alike. -/
structure Programs (S : Simulation p p') : Prop where
  node : ∀ {n n'}, S.node n n' → S.Present (S.OnNode S.node) (p.node? n) (p'.node? n')
  number : ∀ {a a'}, S.number a a' → S.Present (· = ·) (p.number? a) (p'.number? a')
  suspended : ∀ {n n'}, S.suspended n n' → S.node n n'
  fuel : ∀ {cs cs'}, S.calls cs cs' → S.stop cs cs' .outOfFuel .outOfFuel

variable {fuel fuel' reach reach' : Nat}

/-- Two contexts agree when the evaluations of nodes that they are given do. -/
theorem Programs.contexts (P : S.Programs) {nested nested' resume resume' : NodeId → Eval Value}
    (hr : S.Bounds .outOfReach reach reach')
    (hnested : ∀ {n n' s s' d d'}, S.node n n' → S.scope s s' → S.calls d d' →
      S.Agree ⟨s, d⟩ ⟨s', d'⟩ S.OnValue (nested n) (nested' n'))
    (hresume : ∀ {n n' s s' d d'}, S.suspended n n' → S.scope s s' → S.calls d d' →
      S.Agree ⟨s, d⟩ ⟨s', d'⟩ S.OnValue (resume n) (resume' n'))
    (hs : S.scope k.scope k'.scope) (hcs : S.calls k.calls k'.calls) :
    S.Contexts k k' S.node ⟨p, reach, nested, resume⟩ ⟨p', reach', nested', resume'⟩ where
  left := rfl
  right := rfl
  reach := hr
  scope := hs
  calls := hcs
  node := P.node
  number := P.number
  eval hn := hnested hn hs hcs
  body hn hs _ _ hd := hnested hn hs hd
  resume := hresume

/-- Evaluations agree if those of suspended nodes do.  The induction is on the
fuel of the left side; the right has at least as much. -/
theorem evalWith_agree (P : S.Programs) {resume resume' : NodeId → Eval Value}
    (hr : S.Bounds .outOfReach reach reach')
    (hresume : ∀ {n n' s s' d d'}, S.suspended n n' → S.scope s s' → S.calls d d' →
      S.Agree ⟨s, d⟩ ⟨s', d'⟩ S.OnValue (resume n) (resume' n'))
    (hf : S.Bounds .outOfFuel fuel fuel') (hs : S.scope s s') (hcs : S.calls cs cs')
    {n n' : NodeId} (hn : S.node n n') :
    S.Agree ⟨s, cs⟩ ⟨s', cs'⟩ S.OnValue (evalWith p reach resume fuel n)
      (evalWith p' reach' resume' fuel' n') := by
  induction fuel generalizing fuel' cs cs' n n' s s' with
  | zero => exact hf.zero (fun e => by subst e; rfl) P.fuel
  | succ fuel ih =>
    obtain ⟨fuel', rfl, hle⟩ := hf.pred
    have hc : S.Contexts ⟨s, cs⟩ ⟨s', cs'⟩ S.node _ _ :=
      P.contexts hr (fun hn hs hd => ih hle hs hd hn) hresume hs hcs
    exact evalNode_agree hc (P.node hn)

theorem eval_agree (P : S.Programs) (hf : S.Bounds .outOfFuel fuel fuel')
    (hr : S.Bounds .outOfReach reach reach') (hs : S.scope s s') (hcs : S.calls cs cs')
    {n n' : NodeId} (hn : S.node n n') :
    S.Agree ⟨s, cs⟩ ⟨s', cs'⟩ S.OnValue (eval p fuel reach n) (eval p' fuel' reach' n') := by
  induction reach generalizing reach' cs cs' n n' s s' with
  | zero => exact hr.zero (fun e => by subst e; rfl) S.reach
  | succ reach ih =>
    obtain ⟨reach', rfl, hle⟩ := hr.pred
    exact evalWith_agree P hle (fun hn hs hd => ih hle hs hd (P.suspended hn)) hf hs hcs hn

/-- The contexts of the steps of two evaluations. -/
theorem context_agree (P : S.Programs) {rest rest' : Nat} (hf : S.Bounds .outOfFuel fuel fuel')
    (hr : S.Bounds .outOfReach reach reach') (hk : S.Bounds .outOfFuel rest rest')
    (hs : S.scope k.scope k'.scope) (hcs : S.calls k.calls k'.calls) :
    S.Contexts k k' S.node (p.context fuel reach rest) (p'.context fuel' reach' rest') := by
  have hresume : ∀ {n n' s s' d d'}, S.suspended n n' → S.scope s s' → S.calls d d' →
      S.Agree ⟨s, d⟩ ⟨s', d'⟩ S.OnValue (eval p fuel reach n) (eval p' fuel' reach' n') :=
    fun hn hs hd => eval_agree P hf hr hs hd (P.suspended hn)
  exact P.contexts hr (fun hn hs hd => evalWith_agree P hr hresume hk hs hd hn) hresume hs hcs

end Simulation

end LazyExpr
