/-
LazyExpr/Proofs/Allocation.lean

Evaluation passes on references into the store, and makes no others up.

On arguments that are on record, the functions of the evaluator agree with themselves in the
judgement of `Ledger`, if the ways to evaluate nodes that they are given do
(`Ledger.Contexts`).  The names and nodes that they are given do not matter.  The induction
over fuel and reach meets a supervisor in each step (`Ledger.supervised_contexts`): one that
leaves machines alone which have issued what they refer to is not noticed.

A session starts with functions bound in one table, which refer to nothing in the store;
whatever its host asks for, what it refers to is on record from then on, with one entry for
each list.
-/
import LazyExpr.Proofs.Host
import LazyExpr.Proofs.Ledger

namespace LazyExpr

namespace Ledger

variable {l : Ledger}

/-! ### Contexts -/

/-- Two contexts differ in the ways to evaluate nodes alone, and these agree. -/
structure Contexts (c c' : Context) : Prop where
  program : c'.program = c.program
  reach : c'.reach = c.reach
  eval : ∀ {l : Ledger} (n : NodeId), l.Agree (Same Value.Recorded) (c.eval n) (c'.eval n)
  resume : ∀ {l : Ledger} (n : NodeId), l.Agree (Same Value.Recorded) (c.resume n) (c'.resume n)

variable {c c' : Context}

/-- A kind stands for itself, whatever it mentions. -/
theorem onKind_self (p : Program) {child : NodeId → NodeId → Prop} (hchild : ∀ n, child n n)
    (k : Kind) : (judgement p).OnKind child k k :=
  Diagonal.onKind_self (D := diagonal p) (fun n _ => hchild n) fun _ _ => trivial

theorem Contexts.judged (hc : Contexts c c') :
    (judgement c.program).Contexts () (· = ·) (fun _ => c) fun _ => c' where
  left _ := rfl
  right _ := hc.program
  reach := hc.reach.symm
  resume := by
    rintro l _ n _ s s' ⟨rfl, -⟩ - -
    exact hc.resume n
  works := trivial
  current := trivial
  fit := trivial
  node := by
    rintro n _ rfl
    exact .self trivial (fun a => ⟨onKind_self _ (fun _ => ⟨rfl, trivial⟩) a.kind, rfl⟩) _
  number := by
    rintro a _ ⟨rfl, -⟩
    exact .self trivial (fun _ => rfl) _
  eval := by
    rintro l n _ rfl
    exact hc.eval n
  body := by
    rintro l n _ s s' f f' k' ⟨rfl, -⟩ - -
    exact hc.eval n

/-! ### Values -/

theorem equal_agree (hc : Contexts c c') {v w : Value} (hv : v.Recorded l) (hw : w.Recorded l) :
    l.Agree (fun _ => Eq) (v.equal c.force c.reach w) (v.equal c'.force c'.reach w) :=
  Judgement.equal_agree (J := judgement c.program) (w := l) hc.judged.reach
    (hc.judged.forces hc.judged.fit) ⟨rfl, hv⟩ ⟨rfl, hw⟩

theorem display_agree (hc : Contexts c c') {v : Value} (hv : v.Recorded l) :
    l.Agree (fun _ => Eq) (c.display v) (c'.display v) :=
  hc.judged.display (J := judgement c.program) (w := l) (k := ()) trivial ⟨rfl, hv⟩

theorem apply_agree (hc : Contexts c c') (op : BinaryOp) {v w : Value} (hv : v.Recorded l)
    (hw : w.Recorded l) :
    l.Agree (Same Value.Recorded) (op.apply c.force c.reach v w)
      (op.apply c'.force c'.reach v w) :=
  Judgement.apply_agree (J := judgement c.program) (w := l) trivial hc.judged.reach
    (hc.judged.forces hc.judged.fit) op ⟨rfl, hv⟩ ⟨rfl, hw⟩

/-! ### Calls -/

theorem callee_agree (hc : Contexts c c') (n : NodeId) (k : Kind) :
    l.Agree (Same Value.Recorded) (c.callee n k) (c'.callee n k) :=
  hc.judged.callee (J := judgement c.program) (w := l) rfl
    (onKind_self _ (fun _ => ⟨rfl, trivial⟩) k)

theorem callScope_agree (f : Function) :
    l.Agree (Same fun l s => s.index < l.extent.scopes) (Context.callScope f)
      (Context.callScope f) :=
  Judgement.Contexts.callScope (J := judgement .empty) (w := l) (k := ()) trivial
    (Likeness.onFunction_within.2 ⟨rfl, fun _ _ => trivial⟩)

theorem bindArguments_agree (hc : Contexts c c') {s : ScopeId} (hs : s.index < l.extent.scopes)
    (args : List (Name × NodeId)) :
    l.Agree (fun _ _ _ => True) (c.bindArguments s args) (c'.bindArguments s args) :=
  hc.judged.bindArguments (J := judgement c.program) (w := l) ⟨rfl, hs⟩
    (List.forall₂_same.2 fun _ _ => ⟨⟨rfl, trivial⟩, rfl⟩)

theorem body_agree (hc : Contexts c c') (f : Function) {s : ScopeId}
    (hs : s.index < l.extent.scopes) :
    l.Agree (Same Value.Recorded) (c.body f s) (c'.body f s) :=
  hc.judged.body_of_eval (J := judgement c.program) (w := l) (k := ()) trivial ⟨rfl, hs⟩
    (hc.eval f.body)

/-! ### Nodes -/

theorem evalNode_agree (hc : Contexts c c') (n : NodeId) :
    l.Agree (Same Value.Recorded) (c.evalNode n) (c'.evalNode n) :=
  hc.judged.evalNode (J := judgement c.program) (w := l) (judgement_locates _)
    (fun _ _ => trivial) (fun _ => trivial)
    (.self trivial (fun a => ⟨onKind_self _ (fun _ => rfl) a.kind, rfl⟩) _)

theorem run_agree (hc : Contexts c c') (roots : List NodeId) :
    l.Agree (Same Value.Recorded) (run c roots) (run c' roots) :=
  hc.judged.run (J := judgement c.program) (w := l) (List.forall₂_same.2 fun _ _ => rfl)

/-! ### Whole evaluations -/

variable {v : Supervisor} {p : Program} {fuel reach : Nat}

theorem Agree.supervised (hv : v.SparesIssued) {x y : Eval Value} (n : NodeId)
    (h : l.Agree (Same Value.Recorded) x y) : l.Agree (Same Value.Recorded) x (v n y) := by
  intro m hm
  rw [hv n y m hm.issued]
  exact h m hm

/-- The induction is on the fuel. -/
theorem supervisedWith_agree (hv : v.SparesIssued) {resume resume' : NodeId → Eval Value}
    (hresume : ∀ {l : Ledger} (n : NodeId), l.Agree (Same Value.Recorded) (resume n) (resume' n))
    (n : NodeId) :
    l.Agree (Same Value.Recorded) (evalWith p reach resume fuel n)
      (v.evalWith p reach resume' fuel n) := by
  induction fuel generalizing l n with
  | zero => exact agree_throw _
  | succ fuel ih =>
    have hc : Contexts ⟨p, reach, evalWith p reach resume fuel, resume⟩
        ⟨p, reach, v.evalWith p reach resume' fuel, resume'⟩ :=
      ⟨rfl, rfl, fun n => ih n, fun n => hresume n⟩
    exact (evalNode_agree hc n).supervised hv n

theorem supervised_agree (hv : v.SparesIssued) (n : NodeId) :
    l.Agree (Same Value.Recorded) (eval p fuel reach n) (v.eval p fuel reach n) := by
  induction reach generalizing l n with
  | zero => exact agree_throw _
  | succ reach ih => exact supervisedWith_agree hv (fun n => ih n) n

theorem supervised_contexts (hv : v.SparesIssued) (p : Program) (fuel reach rest : Nat) :
    Contexts (p.context fuel reach rest) (v.context p fuel reach rest) where
  program := rfl
  reach := rfl
  eval n := supervisedWith_agree hv (fun n => supervised_agree hv n) n
  resume n := supervised_agree hv n

theorem Contexts.left (hc : Contexts c c') : Contexts c c :=
  ⟨rfl, rfl, fun n => (hc.eval n).left, fun n => (hc.resume n).left⟩

/-- Without a supervisor, which is to say with one that does nothing. -/
theorem contexts (p : Program) (fuel reach rest : Nat) :
    Contexts (p.context fuel reach rest) (p.context fuel reach rest) :=
  (supervised_contexts (v := fun _ x => x) (fun _ _ _ _ => rfl) p fuel reach rest).left

end Ledger

/-! ### Extents -/

namespace Extent

/-- Evaluations that differ in a supervisor agree for extents as well. -/
structure Contexts (c c' : Context) : Prop where
  eval : ∀ {e : Extent} (n : NodeId), e.Agree Value.Issued (c.eval n) (c'.eval n)

theorem supervised_contexts {v : Supervisor} (hv : v.SparesIssued) (p : Program)
    (fuel reach rest : Nat) :
    Contexts (p.context fuel reach rest) (v.context p fuel reach rest) where
  eval n := .of_ledger (fun hw => hw.issued) fun _ =>
    (Ledger.supervised_contexts hv p fuel reach rest).eval n

end Extent

/-! ### Sessions and hosts -/

/-- Everything that a session refers to in its store has been issued. -/
structure Session.Issued (s : Session) : Prop where
  globals : s.globals.index < s.store.scopes.size
  store : s.store.Issued

/-- Everything that a session refers to in its store is on record. -/
structure Session.Recorded (l : Ledger) (s : Session) : Prop where
  globals : s.globals.index < l.extent.scopes
  store : s.store.Recorded l

namespace Session

variable {s : Session} {l : Ledger}

theorem Issued.machine (h : s.Issued) (sink : Sink) : (s.machine sink).Issued :=
  ⟨h.globals, h.store⟩

theorem Issued.recorded (h : s.Issued) : s.Recorded s.store.extent.ledger :=
  ⟨h.globals, h.store.recorded⟩

theorem Recorded.machine (h : s.Recorded l) (sink : Sink) : (s.machine sink).Recorded l :=
  ⟨h.globals, h.store⟩

theorem Recorded.issued (h : s.Recorded l) : s.Issued :=
  let hm := (h.machine .emptyBuffer).issued
  ⟨hm.scope, hm.store⟩

theorem issued_withPrelude (limit : Nat) : (withPrelude limit).Issued := by
  have hfunction : ∀ {n b}, (Prelude.install .empty).2.find? n = some b →
      ∃ f, b.value = .function f := Prelude.find?_install
  unfold withPrelude
  generalize Prelude.install .empty = r at hfunction
  refine ⟨Nat.zero_lt_one, ⟨fun {s n b} hb => ?_, fun i f hf => nomatch hf⟩⟩
  obtain ⟨i⟩ := s
  cases i with
  | zero =>
    obtain ⟨f, hf⟩ := hfunction hb
    rw [hf]
    exact .function f
  | succ i => cases hb

/-- No list has been made when a session starts, so there are no entries. -/
theorem exact_withPrelude (limit : Nat) : (withPrelude limit).store.extent.ledger.Exact := by
  unfold withPrelude
  generalize Prelude.install .empty = r
  exact Extent.exact_ledger rfl

/-- A step that agrees with itself leaves a session behind that has more on record. -/
theorem Recorded.perform (h : s.Recorded l) {α : Type} {A : Ledger → α → α → Prop} {x : Eval α}
    (hx : l.Agree A x x) (sink : Sink) :
    ∃ l', l.Grows l' ∧ (s.perform sink x).2.Recorded l' ∧
      ∀ a, (s.perform sink x).1.result = .ok a → A l' a a := by
  have hends := hx _ (h.machine sink)
  unfold Session.perform
  generalize x (s.machine sink) = r at hends
  cases hends with
  | @ok a _ l' m' hm' ha =>
    have hglobals := Nat.lt_of_lt_of_le h.globals hm'.grows.extent.scopes
    refine ⟨l', hm'.grows, ⟨hglobals, hm'.recorded.store⟩, fun b hb => ?_⟩
    cases hb
    exact ha
  | @error e l' m' hm' =>
    have hglobals := Nat.lt_of_lt_of_le h.globals hm'.grows.extent.scopes
    exact ⟨l', hm'.grows, ⟨hglobals, hm'.recorded.store⟩, fun _ hb => nomatch hb⟩

end Session

namespace Host

/-- What a host holds, and what its session refers to, has been issued. -/
structure Issued (h : Host) : Prop where
  session : h.session.Issued
  values : ∀ v ∈ h.values, v.Issued h.session.store.extent

/-- What a host holds, and what its session refers to, is on record. -/
structure Recorded (l : Ledger) (h : Host) : Prop where
  session : h.session.Recorded l
  values : ∀ v ∈ h.values, v.Recorded l

variable {h : Host} {l : Ledger}

theorem Issued.recorded (hi : h.Issued) : h.Recorded h.session.store.extent.ledger :=
  ⟨hi.session.recorded, fun v hv => (hi.values v hv).recorded⟩

theorem Recorded.issued (hr : h.Recorded l) : h.Issued :=
  ⟨hr.session.issued, fun v hv => hr.session.store.extent ▸ (hr.values v hv).issued⟩

theorem Recorded.perform (hr : h.Recorded l) {α : Type} {A : Ledger → α → α → Prop}
    {x : Eval α} (hx : l.Agree A x x) (sink : Sink) :
    ∃ l', l.Grows l' ∧ Recorded l' { h with session := (h.session.perform sink x).2 } := by
  obtain ⟨l', hgrows, hs, -⟩ := hr.session.perform hx sink
  exact ⟨l', hgrows, hs, fun v hv => (hr.values v hv).mono hgrows⟩

theorem Recorded.take (hr : h.Recorded l) {x : Eval Value}
    (hx : l.Agree (Ledger.Same Value.Recorded) x x) (sink : Sink) :
    ∃ l', l.Grows l' ∧ (h.take (h.session.perform sink x)).2.Recorded l' := by
  obtain ⟨l', hgrows, hs, hvalue⟩ := hr.session.perform hx sink
  have hvalues : ∀ v ∈ h.values, v.Recorded l' := fun v hv => (hr.values v hv).mono hgrows
  refine ⟨l', hgrows, ?_⟩
  unfold Host.take
  split
  · next v hresult =>
    refine ⟨hs, fun w hw => ?_⟩
    rcases List.mem_append.1 hw with hw | hw
    · exact hvalues w hw
    · obtain rfl := List.mem_singleton.1 hw
      exact (hvalue _ hresult).2
  · exact ⟨hs, hvalues⟩

/-- Whatever a host asks for. -/
theorem Recorded.answer (hr : h.Recorded l) (r : Request) :
    ∃ l', l.Grows l' ∧ (h.answer r).2.Recorded l' := by
  have hc : ∀ reach, Ledger.Contexts (h.session.context reach) (h.session.context reach) :=
    fun reach => Ledger.contexts _ _ _ _
  have hself : ∃ l', l.Grows l' ∧ h.Recorded l' := ⟨l, .refl l, hr⟩
  cases r with
  | add es =>
    obtain ⟨p, hp⟩ := h.session.addAll_snd es
    refine ⟨l, .refl l, ?_⟩
    simp only [Host.answer]
    generalize h.session.addAll es = x at hp
    obtain ⟨ids, s⟩ := x
    obtain rfl : s = { h.session with program := p } := hp
    cases ids with
    | ok ids => exact ⟨⟨hr.session.globals, hr.session.store⟩, hr.values⟩
    | error e => exact ⟨⟨hr.session.globals, hr.session.store⟩, hr.values⟩
  | run reach sink roots =>
    simp only [Host.answer]
    split
    · exact hr.take (Ledger.run_agree (hc reach) _) sink
    · exact hself
  | display reach i =>
    simp only [Host.answer]
    split
    · next v hv =>
      exact hr.perform (Ledger.display_agree (hc reach)
        (hr.values v (List.mem_of_getElem? hv))) _
    · exact hself
  | equal reach i j =>
    simp only [Host.answer]
    split
    · next v w hv hw =>
      exact hr.perform (Ledger.equal_agree (hc reach)
        (hr.values v (List.mem_of_getElem? hv)) (hr.values w (List.mem_of_getElem? hw))) _
    · exact hself
  | apply reach op i j =>
    simp only [Host.answer]
    split
    · next v w hv hw =>
      exact hr.take (Ledger.apply_agree (hc reach) op
        (hr.values v (List.mem_of_getElem? hv)) (hr.values w (List.mem_of_getElem? hw))) _
    · exact hself

theorem Recorded.answerAll (hr : h.Recorded l) (requests : List Request) :
    ∃ l', l.Grows l' ∧ (h.answerAll requests).2.Recorded l' := by
  induction requests generalizing h l with
  | nil => exact ⟨l, .refl l, hr⟩
  | cons r requests ih =>
    obtain ⟨l₁, hgrows₁, hr₁⟩ := hr.answer r
    obtain ⟨l₂, hgrows₂, hr₂⟩ := ih hr₁
    exact ⟨l₂, hgrows₁.trans hgrows₂, hr₂⟩

theorem Issued.answerAll (hi : h.Issued) (requests : List Request) :
    (h.answerAll requests).2.Issued := by
  obtain ⟨l, -, hr⟩ := hi.recorded.answerAll requests
  exact hr.issued

theorem issued_start {s : Session} (hs : s.Issued) : (start s).Issued :=
  ⟨hs, fun _ hv => absurd hv List.not_mem_nil⟩

end Host

end LazyExpr
