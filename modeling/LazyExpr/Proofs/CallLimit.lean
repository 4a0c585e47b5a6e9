/-
LazyExpr/Proofs/CallLimit.lean

The limit on active calls.

Calls are entered and left in pairs: whatever an evaluation does, scope and calls are
afterwards what they were, a call that is left is the one that was entered, and none is
left while none is active.  The number of active calls stays within the limit at every
node that is evaluated on the way.

Apart from that, the limit is seen by nobody.  A call that is one too many ends the
run: no evaluation in which it is nested goes on to anything else.  A run that does not
end so is the same under every larger limit, with all that it prints, stores and
declares.  The two runs are compared by a simulation in which the calls are the same
and the limits are not, with the refusal of a call excused on the left
(`raisedLimit`).
-/
import LazyExpr.Proofs.Supervision
import LazyExpr.Proofs.Validity

namespace LazyExpr

/-! ### Balance -/

section

variable {p : Program} {fuel reach rest : Nat} {m : Machine}

theorem control_eval (n : NodeId) :
    (((p.context fuel reach rest).eval n).after m).control = m.control := by
  have hm : (anyStore p).toInvariant.Holds m := ⟨trivial, trivial, trivial⟩
  exact (Invariant.eval_keeps fuel reach rest (fun _ => trivial) (n := n) trivial hm).control_after

theorem control_body (f : Function) (scope : ScopeId) :
    (((p.context fuel reach rest).body f scope).after m).control = m.control := by
  have hc : (anyStore p).toInvariant.simulation.Contexts ⟨scope, m.calls⟩ ⟨scope, m.calls⟩ _
      (p.context fuel reach rest) (p.context fuel reach rest) := (anyStore p).contexts _
  have hbody : (anyStore p).toInvariant.simulation.Agree m.control m.control _
      ((p.context fuel reach rest).body f scope) ((p.context fuel reach rest).body f scope) :=
    Simulation.body_agree hc hc.scope ⟨rfl, trivial⟩ (hc.eval ⟨rfl, trivial⟩)
  exact (Invariant.keeps_of_agree hbody (fun _ _ => trivial) trivial trivial).control_after

end

/-- The number of active calls is within the limit. -/
def withinLimit (p : Program) : Invariant p :=
  { (anyStore p).toInvariant with
    calls := fun cs => cs.depth ≤ cs.limit
    push := by
      intro cs f d _ hd
      obtain ⟨hlt, hdepth, hlimit⟩ := CallStack.depth_of_push hd
      rw [hdepth, hlimit]
      exact hlt }

theorem Stop.mapFault_ne_noFrame {e : Stop} (f : Fault → Fault) (h : e ≠ .noFrame) :
    e.mapFault f ≠ .noFrame := by
  cases e with
  | fault x => exact fun h => by cases h
  | _ => exact h

/-- No call is left while none is active. -/
def framed (p : Program) : Invariant p :=
  { (anyStore p).toInvariant with
    stop := fun _ e => e ≠ .noFrame
    no_node := fun _ _ _ => by simp
    no_number := fun _ _ _ => by simp
    raise := fun _ _ => by simp
    reach := fun _ => by simp
    capacity := fun _ => by simp
    place := fun _ he => Stop.mapFault_ne_noFrame _ he
    leave := fun _ he => Stop.mapFault_ne_noFrame _ he
    refuse := fun _ => by simp }

theorem eval_ne_noFrame {p : Program} {fuel reach rest : Nat} {m m' : Machine} (n : NodeId) :
    (p.context fuel reach rest).eval n m ≠ .error .noFrame m' := by
  intro h
  have hk := Invariant.eval_keeps (I := framed p) fuel reach rest (fun _ => by simp [framed])
    (n := n) (m := m) trivial ⟨trivial, trivial, trivial⟩
  rw [h] at hk
  cases hk with
  | error he _ _ => exact he rfl

/-- Raise the alarm at every node that is evaluated with more calls than the limit. -/
def Supervisor.onExcess (alarm : NodeId → Eval Value) : Supervisor := fun n x m =>
  if m.calls.depth ≤ m.calls.limit then x m else alarm n m

theorem transparent_onExcess (p : Program) (alarm : NodeId → Eval Value) :
    (Supervisor.onExcess alarm).Transparent (withinLimit p).simulation := by
  intro _ n k k' x y _ hcs h m m' hm
  have hcalls : m'.calls.depth ≤ m'.calls.limit := by
    have hright : m'.calls = k'.calls := congrArg Control.calls hm.right
    rw [hright, ← hcs.1]
    exact hcs.2
  have hsame : Supervisor.onExcess alarm n y m' = y m' := if_pos hcalls
  rw [hsame]
  exact h m m' hm

/-- Evaluation gives scope and calls back as they were.  If the active calls are within
the limit, they are so at every node that is evaluated on the way.  Whoever leaves a
call finds it on top, with the calls below that there were before; so no call is left
while none is active. -/
theorem calls_balanced_within_limit (p : Program) (fuel reach rest : Nat) (m : Machine) :
    (∀ n, (((p.context fuel reach rest).eval n).after m).control = m.control) ∧
    (m.calls.depth ≤ m.calls.limit → ∀ alarm n,
      ((Supervisor.onExcess alarm).context p fuel reach rest).eval n m =
        (p.context fuel reach rest).eval n m) ∧
    (∀ f scope frame calls, m.calls.push frame = .ok calls →
      (((p.context fuel reach rest).body f scope).after { m with calls }).calls = calls ∧
      0 < calls.depth ∧ calls.pop = m.calls) ∧
    ∀ n m', (p.context fuel reach rest).eval n m ≠ .error .noFrame m' := by
  refine ⟨control_eval, fun hle alarm n => ?_, fun f scope frame calls hpush => ?_,
    fun n _ => eval_ne_noFrame n⟩
  · have hc : (withinLimit p).simulation.Contexts m.control m.control _ _ _ :=
      Simulation.supervised_contexts fuel reach (Invariant.programs fun _ => trivial)
        (transparent_onExcess p alarm) rest ⟨rfl, trivial⟩ ⟨rfl, hle⟩
    rcases Invariant.eq_or_excused (hc.eval ⟨rfl, trivial⟩)
      (fun hv => (Likeness.onValue_within.1 hv).1) hle trivial with ⟨_, _, _, hfalse⟩ | heq
    · exact hfalse.elim
    · exact heq
  · have hdepth := (CallStack.depth_of_push hpush).2.1
    refine ⟨congrArg Control.calls (control_body f scope), ?_, CallStack.pop_of_push hpush⟩
    rw [hdepth]
    exact Nat.succ_pos _

/-- A function `f` that calls itself, and a call of it. -/
def Program.endless : Program :=
  ⟨#[⟨.ident ⟨1⟩, .unlocated⟩, ⟨.call ⟨0⟩ [], ⟨4, 7⟩⟩, ⟨.lambda ⟨1⟩ [] ⟨1⟩, .unlocated⟩,
      ⟨.call ⟨2⟩ [], ⟨0, 9⟩⟩], #[], (Names.initial.intern "f").2⟩

/-- With one call active and room for two more, a function calls itself until there is no
room: two calls are entered and left again, and a third one is refused.  The first of
them finds its body evaluated under the call that it entered. -/
theorem calls_balanced_in_endless_recursion :
    let p := Program.endless
    let active : CallStack := ⟨#[⟨.empty, none⟩], 3⟩
    let m : Machine := ⟨.empty, .empty, .emptyBuffer, ⟨0⟩, active⟩
    let frame : Frame := ⟨⟨1⟩, some ⟨0, 9⟩⟩
    active.depth ≤ active.limit ∧
      (∃ f m', (p.context 9 1 9).eval ⟨3⟩ m = .error (.fault f) m' ∧
        f.cause = .recursionLimit 3 ∧ f.backtrace.map (·.length) = some 3 ∧
        m'.control = m.control) ∧
      (∀ alarm, ((Supervisor.onExcess alarm).context p 9 1 9).eval ⟨3⟩ m =
        (p.context 9 1 9).eval ⟨3⟩ m) ∧
      ∃ calls, active.push frame = .ok calls ∧ calls.depth = 2 ∧
        (((p.context 9 1 8).body ⟨⟨1⟩, [], ⟨1⟩⟩ ⟨0⟩).after { m with calls }).calls = calls ∧
        calls.pop = active := by
  intro p active m frame
  have hle : active.depth ≤ active.limit := by decide
  obtain ⟨hcontrol, hwithin, -, -⟩ := calls_balanced_within_limit p 9 1 9 m
  have hfault : (Eval.fault? ((p.context 9 1 9).eval ⟨3⟩ m)).map
      (fun f => (f.cause, f.backtrace.map (·.length))) = some (.recursionLimit 3, some 3) := by
    decide +kernel
  have hpush : active.push frame = .ok ⟨active.frames.push frame, 3⟩ := rfl
  obtain ⟨hcalls, -, hpop⟩ :=
    (calls_balanced_within_limit p 9 1 8 m).2.2.1 ⟨⟨1⟩, [], ⟨1⟩⟩ ⟨0⟩ frame _ hpush
  refine ⟨hle, ?_, fun alarm => hwithin hle alarm ⟨3⟩, _, hpush, rfl, hcalls, hpop⟩
  have hafter := hcontrol ⟨3⟩
  obtain ⟨f, hsome, hf⟩ := Option.map_eq_some_iff.1 hfault
  obtain ⟨hcause, hlength⟩ := Prod.mk.inj hf
  obtain ⟨m', heval⟩ := Eval.exists_of_fault? hsome
  rw [Eval.after_of_error heval] at hafter
  exact ⟨f, m', heval, hcause, hlength, hafter⟩

/-! ### One call too many -/

/-- The fault of a call that is one too many. -/
def Stop.isOverflow : Stop → Bool
  | .fault f => match f.cause with
    | .recursionLimit _ => true
    | _ => false
  | _ => false

theorem Stop.isOverflow_mapFault {e : Stop} (f : Fault → Fault) (hf : ∀ a, (f a).cause = a.cause)
    (h : e.isOverflow = true) : (e.mapFault f).isOverflow = true := by
  cases e with
  | fault x => simpa [mapFault, isOverflow, hf] using h
  | _ => exact h

theorem Stop.isOverflow_of_push {cs : CallStack} {f : Frame} {cause : Cause}
    (h : cs.push f = .error cause) (names : Names) :
    (Stop.fault (cs.attach names (.ofCause cause))).isOverflow = true := by
  rw [CallStack.push] at h
  split at h
  · cases h
    simp [isOverflow, Fault.ofCause]
  · cases h

/-- Hand every evaluation of a node that ends in an overflow to a handler. -/
def Supervisor.onOverflow (handler : NodeId → Stop → Eval Value) : Supervisor := fun n x m =>
  match x m with
  | .ok a m => .ok a m
  | .error e m => if e.isOverflow then handler n e m else .error e m

/-- Two evaluations that are equal unless the left one overflows. -/
def noOverflow (p : Program) : Simulation p p :=
  (anyStore p).toInvariant.excusing (·.isOverflow = true) fun f hf h =>
    Stop.isOverflow_mapFault f hf h

theorem transparent_onOverflow (p : Program) (handler : NodeId → Stop → Eval Value) :
    (Supervisor.onOverflow handler).Transparent (noOverflow p) := by
  intro _ n k k' x y _ _ h m m' hm
  have hr := h m m' hm
  show (noOverflow p).Ends k k' _ (x m) (match y m' with
    | .ok a m => .ok a m
    | .error e m => if e.isOverflow then handler n e m else .error e m)
  generalize x m = r, y m' = r' at hr
  cases hr with
  | ok hv hm => exact .ok hv hm
  | @error e e' m m' he hm =>
    obtain rfl : e = e' := he.1
    by_cases hover : e.isOverflow = true
    · exact .excused hover hm.left
    · dsimp only
      rw [if_neg hover]
      exact .error he hm
  | excused he hk => exact .excused he hk

/-! ### Other limits -/

def CallStack.withLimit (cs : CallStack) (limit : Nat) : CallStack := { cs with limit }

def Machine.withLimit (m : Machine) (limit : Nat) : Machine :=
  { m with calls := m.calls.withLimit limit }

def Session.withLimit (s : Session) (limit : Nat) : Session := { s with limit }

/-- A call that is entered is entered under a larger limit too. -/
theorem CallStack.push_withLimit {cs d : CallStack} {f : Frame} {limit : Nat}
    (h : cs.push f = .ok d) (hle : cs.limit ≤ limit) :
    (cs.withLimit limit).push f = .ok (d.withLimit limit) := by
  have hlt : cs.depth < cs.limit := (depth_of_push h).1
  rw [push, if_neg (Nat.not_le_of_lt hlt)] at h
  cases h
  have hlt' : (cs.withLimit limit).depth < (cs.withLimit limit).limit := Nat.lt_of_lt_of_le hlt hle
  rw [push, if_neg (Nat.not_le_of_lt hlt')]
  rfl

section

variable {p : Program} {y : Stop → Prop}

/-- The same calls under two limits.  Where the left side is refused a call, nothing is
said about the right. -/
def raisedLimit (p : Program) {limit limit' : Nat} (hle : limit ≤ limit') (y : Stop → Prop)
    (hy : ∀ {e} (f : Fault → Fault), (∀ a, (f a).cause = a.cause) → y e → y (e.mapFault f))
    (hover : ∀ {e : Stop}, e.isOverflow = true → y e) : Simulation p p :=
  { (anyStore p).toInvariant.excusing y hy with
    calls := fun cs cs' => cs.limit = limit ∧ cs' = cs.withLimit limit'
    enter := by
      rintro cs _ n _ d sp ⟨hcs, rfl⟩ ⟨rfl, -⟩ hd
      have hlimit := Nat.le_trans (Nat.le_of_eq hcs) hle
      refine ⟨d.withLimit limit', CallStack.push_withLimit hd hlimit, ?_, ?_⟩
      · exact ⟨(CallStack.depth_of_push hd).2.2.trans hcs, rfl⟩
      · rintro e _ ⟨rfl, -⟩
        exact ⟨rfl, trivial⟩
    refuse := by
      rintro cs _ n _ c sp - - hd
      exact .inl (hover (Stop.isOverflow_of_push hd p.names))
    raise := by
      rintro cs _ c -
      exact ⟨rfl, trivial⟩
    reach := by
      rintro cs _ -
      exact ⟨rfl, trivial⟩
    capacity := by
      rintro cs _ -
      exact ⟨rfl, trivial⟩ }

variable {hy : ∀ {e} (f : Fault → Fault), (∀ a, (f a).cause = a.cause) → y e → y (e.mapFault f)}
variable {hover : ∀ {e : Stop}, e.isOverflow = true → y e}
variable {limit limit' : Nat} {hle : limit ≤ limit'}

theorem raisedLimit_programs : (raisedLimit p hle y hy hover).Programs :=
  .of_within (anyStore p).toInvariant rfl (fun _ => rfl) (fun _ => rfl) fun _ _ => ⟨rfl, trivial⟩

theorem eq_withLimit_of_holds {cs : CallStack} {scope : ScopeId} {m m' : Machine}
    (h : (raisedLimit p hle y hy hover).Holds ⟨scope, cs⟩ ⟨scope, cs.withLimit limit'⟩ m m') :
    m' = m.withLimit limit' := by
  have hsink : m.sink = m'.sink := h.sink
  have hscope : m.scope = scope := congrArg Control.scope h.left
  have hcalls : m.calls = cs := congrArg Control.calls h.left
  rw [h.eq fun hσ => ⟨hσ.1, hσ.2.1⟩, ← hsink, ← hscope, ← hcalls]
  rfl

end

/-- A run under a larger limit does the same, unless the first run ends in a stop that
is excused. -/
theorem run_withLimit {p : Program} {y : Stop → Prop}
    (hy : ∀ {e} (f : Fault → Fault), (∀ a, (f a).cause = a.cause) → y e → y (e.mapFault f))
    (hover : ∀ {e : Stop}, e.isOverflow = true → y e) {fuel fuel' rest rest' : Nat}
    (hf : fuel = fuel' ∨ fuel ≤ fuel' ∧ y .outOfFuel)
    (hk : rest = rest' ∨ rest ≤ rest' ∧ y .outOfFuel) (reach : Nat) (roots : List NodeId)
    {m : Machine} {limit : Nat} (hle : m.calls.limit ≤ limit) :
    (∃ e n, run (p.context fuel reach rest) roots m = .error e n ∧ y e) ∨
      run (p.context fuel' reach rest') roots (m.withLimit limit) =
        Eval.mapMachine (·.withLimit limit) (run (p.context fuel reach rest) roots m) := by
  have hc : (raisedLimit p hle y hy hover).Contexts m.control (m.withLimit limit).control _
      (p.context fuel reach rest) (p.context fuel' reach rest') :=
    Simulation.context_agree raisedLimit_programs hf (.inl rfl) hk ⟨rfl, trivial⟩ ⟨rfl, rfl⟩
  have hroots : List.Forall₂ (raisedLimit p hle y hy hover).node roots roots :=
    List.forall₂_same.2 fun _ _ => ⟨rfl, trivial⟩
  exact (Simulation.run_agree hc hroots).eq_or_excused
    ⟨rfl, rfl, ⟨rfl, rfl⟩, rfl, rfl, rfl, trivial⟩
    (fun hv => (Likeness.onValue_within.1 hv).1) (fun he => he.1) eq_withLimit_of_holds

/-! ### Runs that do not overflow -/

/-- The step ended in an overflow. -/
def Eval.Overflows {α : Type} (r : EStateM.Result Stop Machine α) : Prop :=
  ∃ e m, r = .error e m ∧ e.isOverflow = true

/-- The run ended in an overflow. -/
def Outcome.Overflows {α : Type} (o : Outcome α) : Prop :=
  ∃ e, o.result = .error e ∧ e.isOverflow = true

theorem run_onOverflow (p : Program) (fuel reach rest : Nat) (roots : List NodeId) (m : Machine)
    (handler : NodeId → Stop → Eval Value) :
    Eval.Overflows (run (p.context fuel reach rest) roots m) ∨
      run ((Supervisor.onOverflow handler).context p fuel reach rest) roots m =
        run (p.context fuel reach rest) roots m := by
  have hc : (noOverflow p).Contexts m.control m.control _ _ _ :=
    Simulation.supervised_contexts fuel reach (Invariant.programs fun _ => trivial)
      (transparent_onOverflow p handler) rest ⟨rfl, trivial⟩ ⟨rfl, trivial⟩
  have hroots : List.Forall₂ (noOverflow p).node roots roots :=
    List.forall₂_same.2 fun _ _ => ⟨rfl, trivial⟩
  exact Invariant.eq_or_excused (Simulation.run_agree hc hroots)
    (fun hv => (Likeness.onValue_within.1 hv).1) trivial trivial

namespace Session

variable {s : Session} {roots : List NodeId} {limit : Nat}

theorem close_withLimit {α : Type} (r : EStateM.Result Stop Machine α) :
    (s.withLimit limit).close (Eval.mapMachine (·.withLimit limit) r) =
      ((s.close r).1, (s.close r).2.withLimit limit) := by
  cases r <;> rfl

/-- In a valid session the fuel suffices under every limit, so that only the limit
itself can make a difference. -/
theorem Valid.run_withLimit (hs : s.Valid) (hr : ∀ r ∈ roots, r.index < s.program.size)
    (hle : s.limit ≤ limit) (reach : Nat) (sink : Sink) :
    (s.run reach sink roots).1.Overflows ∨
      (s.withLimit limit).run reach sink roots =
        ((s.run reach sink roots).1, (s.run reach sink roots).2.withLimit limit) := by
  have hfuel : s.fuel ≤ (s.withLimit limit).fuel :=
    Nat.mul_le_mul_right _ (Nat.succ_le_succ hle)
  have hkeeps := hs.run_keeps reach sink hr
  have hrun := LazyExpr.run_withLimit (p := s.program) (m := s.machine sink)
    (y := fun e => e.isOverflow = true ∨ e = .outOfFuel)
    (fun f hf => Or.imp (Stop.isOverflow_mapFault f hf) (Stop.mapFault_outOfFuel f)) .inl
    (.inr ⟨hfuel, .inr rfl⟩) (.inr ⟨hfuel, .inr rfl⟩) reach roots hle
  rcases hrun with ⟨e, m, he, hover | rfl⟩ | heq
  · refine .inl ⟨e, ?_, hover⟩
    show (s.perform sink _).1.result = _
    rw [perform_result, show LazyExpr.run (s.context reach) roots (s.machine sink) = _ from he]
  · rw [show LazyExpr.run (s.context reach) roots (s.machine sink) = _ from he] at hkeeps
    cases hkeeps with
    | error hregular _ _ => exact hregular.elim
  · refine .inr ?_
    rw [run_eq, run_eq, ← close_withLimit]
    exact congrArg (s.withLimit limit).close heq

end Session

/-- The limit on active calls is only a cut-off.  A run from any machine overflows, or
it does the same under every larger limit; and unless it overflows, no evaluation of
a node inside it did, whatever a handler would have made of that.  In a valid
session this holds of runs as a whole. -/
theorem limit_only_cuts_off (limit : Nat) :
    (∀ (p : Program) (fuel reach rest : Nat) (roots : List NodeId) (m : Machine)
      (handler : NodeId → Stop → Eval Value), m.calls.limit ≤ limit →
      Eval.Overflows (run (p.context fuel reach rest) roots m) ∨
        run (p.context fuel reach rest) roots (m.withLimit limit) =
          Eval.mapMachine (·.withLimit limit) (run (p.context fuel reach rest) roots m) ∧
        run ((Supervisor.onOverflow handler).context p fuel reach rest) roots m =
          run (p.context fuel reach rest) roots m) ∧
    ∀ (s : Session) (reach : Nat) (sink : Sink) (roots : List NodeId), s.Valid →
      (∀ r ∈ roots, r.index < s.program.size) → s.limit ≤ limit →
      (s.run reach sink roots).1.Overflows ∨
        (s.withLimit limit).run reach sink roots =
          ((s.run reach sink roots).1, (s.run reach sink roots).2.withLimit limit) := by
  constructor
  · intro p fuel reach rest roots m handler hle
    rcases run_onOverflow p fuel reach rest roots m handler with hover | hhandled
    · exact .inl hover
    · have hrun : Eval.Overflows (run (p.context fuel reach rest) roots m) ∨
          run (p.context fuel reach rest) roots (m.withLimit limit) =
            Eval.mapMachine (·.withLimit limit) (run (p.context fuel reach rest) roots m) :=
        run_withLimit (y := (·.isOverflow = true)) (fun f hf => Stop.isOverflow_mapFault f hf) id
          (.inl rfl) (.inl rfl) reach roots hle
      exact hrun.imp id fun heq => ⟨heq, hhandled⟩
  · intro s reach sink roots hs hr hle
    exact hs.run_withLimit hr hle reach sink

/-- A function that calls itself down to zero, called with one. -/
def countdown : List Expr :=
  [.assign .mutable "down" (.lambda "down" ["n"]
      (.ifElse (.binary .eq (.ident "n") (.integer 0)) (.ident "n")
        (.call (.ident "down") [.binary .sub (.ident "n") (.integer 1)]))),
    .call (.ident "down") [.integer 1]]

/-- Two active calls are enough for it, so that a larger limit makes no difference. -/
theorem countdown_limit_only_cuts_off :
    ((Session.withPrelude 2).addAll countdown).1 = .ok [⟨23⟩, ⟨26⟩] ∧
    (((Session.withPrelude 2).addAll countdown).2.run 5 .emptyBuffer [⟨23⟩, ⟨26⟩]).1.result.isOk ∧
    (((Session.withPrelude 2).addAll countdown).2.withLimit 10000).run 5 .emptyBuffer [⟨23⟩, ⟨26⟩] =
      ((((Session.withPrelude 2).addAll countdown).2.run 5 .emptyBuffer [⟨23⟩, ⟨26⟩]).1,
        (((Session.withPrelude 2).addAll countdown).2.run 5 .emptyBuffer
          [⟨23⟩, ⟨26⟩]).2.withLimit 10000) := by
  have hroots : ((Session.withPrelude 2).addAll countdown).1 = .ok [⟨23⟩, ⟨26⟩] := by
    decide +kernel
  have hok : (((Session.withPrelude 2).addAll countdown).2.run 5 .emptyBuffer
      [⟨23⟩, ⟨26⟩]).1.result.isOk := by decide +kernel
  obtain ⟨hvalid, hlt⟩ := (Session.valid_withPrelude 2).addAll countdown
  refine ⟨hroots, hok, ?_⟩
  refine ((limit_only_cuts_off 10000).2 _ 5 .emptyBuffer _ hvalid (hlt _ hroots)
    (by decide +kernel)).resolve_left ?_
  rintro ⟨e, he, -⟩
  rw [he] at hok
  cases hok

end LazyExpr
