/-
LazyExpr/Proofs/Nesting.lean

Evaluation where nothing is suspended.

From a strict store, evaluation of a strict program settles in the sense of `Strictness`, if
the evaluations of nodes that it is given do (`StrictContexts`).

Since nothing is ever resumed, all nesting is that of one node in another, and the fuel
counts it: with fuel for so many node evaluations, an evaluation gives up as soon as more
of them are nested in each other.  The pair of the calls that may still be entered and
the place of the node decreases as it does in `Validity`, so fuel for every node once in
each call and once outside is enough, and any more of it makes no difference
(`Settles.evalWith`).

That nothing comes to be suspended on the way is said with a supervisor, who may do
anything about an evaluation unless it starts strict and ends strict, and with an
arbitrary way to evaluate suspended nodes: neither makes a difference.

Nothing of the kind bounds the walks through values.  Lists can be put into lists without
end, and a comparison goes as deep as they are nested: three nodes are enough to exceed
any reach (`Session.comparison_of_nested_exceeds`).
-/
import LazyExpr.Proofs.Strictness
import LazyExpr.Proofs.Termination

namespace LazyExpr

open Filter

variable {p : Program} {ι : Type} {l : Filter ι} {k : Control}

/-! ### Contexts -/

/-- Contexts of evaluations of one strict program, along the filter: their reach grows
without bound, and the evaluations that they are given settle.  These are those of the
children of a node with the calls that are active now, and of bodies with one call more. -/
structure StrictContexts (l : Filter ι) (p : Program) (k : Control) (child : NodeId → Prop)
    (c : ι → Context) : Prop where
  wellFormed : p.WellFormed
  strict : p.Strict
  program : ∀ i, (c i).program = p
  reach : Tendsto (fun i => (c i).reach) l atTop
  node : ∀ {n}, child n → n.index < p.size
  eval : ∀ {n}, child n → Settles l p k (Value.Strict p) fun i => (c i).eval n
  body : ∀ {n s f cs}, n.index < p.size → k.calls.push f = .ok cs →
    Settles l p ⟨s, cs⟩ (Value.Strict p) fun i => (c i).eval n

namespace StrictContexts

open Settles

variable {child : NodeId → Prop} {c : ι → Context}

/-- The node is there, and its parts are like themselves where they are children. -/
theorem present_node (hp : p.WellFormed) (hstrict : p.Strict) {n : NodeId} (hn : n.index < p.size)
    {child : NodeId → NodeId → Prop} (hchild : ∀ m : NodeId, m.index < n.index → child m m) :
    Present (judgement l p).dangles ((judgement l p).OnNode child) (p.node? n) (p.node? n) := by
  obtain ⟨a, ha⟩ := Option.ne_none_iff_exists'.1 (Program.node?_ne_none hn)
  have hkind : (judgement l p).OnKind child a.kind a.kind :=
    Diagonal.onKind_self (D := diagonal p) (fun m hm => hchild m (hp.children ha m hm))
      (hstrict.refs hp ha)
  rw [ha]
  exact .some ⟨hkind, rfl⟩

theorem judged (hc : StrictContexts l p k child c) :
    (judgement l p).Contexts k (fun n n' => n = n' ∧ child n) c c where
  left := hc.program
  right := hc.program
  reach := hc.reach
  resume hn _ _ := hn.2.elim
  works := trivial
  current := trivial
  fit := trivial
  node := by
    rintro n _ ⟨rfl, hn⟩
    exact present_node hc.wellFormed hc.strict (hc.node hn)
      fun m hm => ⟨rfl, Nat.lt_trans hm (hc.node hn)⟩
  number := by
    rintro a _ ⟨rfl, ha⟩
    obtain ⟨d, hd⟩ := Option.ne_none_iff_exists'.1 (Program.number?_ne_none ha)
    rw [hd]
    exact .some rfl
  eval := by
    rintro _ n _ ⟨rfl, hn⟩
    exact (hc.eval hn).imp fun v hv => ⟨v, rfl, hv⟩
  body := by
    rintro _ n _ s _ f _ _ ⟨rfl, hn⟩ ⟨rfl, -⟩ ⟨d, hd, rfl⟩
    exact (hc.body hn hd).imp fun v hv => ⟨v, rfl, hv⟩

theorem evalNode (hc : StrictContexts l p k child c) {n : NodeId} (hn : n.index < p.size)
    (hchild : ∀ m : NodeId, m.index < n.index → child m) :
    Settles l p k (Value.Strict p) fun i => (c i).evalNode n := by
  have hstrict : ∀ a, p.node? n = some a → a.kind.isStrict = true :=
    fun a ha => hc.strict a (Array.mem_of_getElem? ha)
  have hnode : Present _ ((judgement l p).OnNode fun n n' => n = n' ∧ child n) (p.node? n) _ :=
    present_node hc.wellFormed hc.strict hn fun m hm => ⟨rfl, hchild m hm⟩
  have h := hc.judged.evalNode (w := ()) judgement_locates hstrict (fun _ => trivial) hnode
  exact Settles.imp h fun _ ⟨_, _, hv⟩ => hv

theorem run (hc : StrictContexts l p k child c) {roots : List NodeId}
    (hr : ∀ r ∈ roots, child r) :
    Settles l p k (Value.Strict p) fun i => LazyExpr.run (c i) roots := by
  have h := hc.judged.run (w := ()) (List.forall₂_same.2 fun r hmem => ⟨rfl, hr r hmem⟩)
  exact Settles.imp h fun _ ⟨_, _, hv⟩ => hv

end StrictContexts

/-! ### Whole evaluations -/

/-- The supervisor leaves evaluations alone that start in a strict store and end in a
strict value or in a fault, in a strict store again.  Nothing is said about what it does
with others. -/
def Supervisor.SparesStrict (v : Supervisor) (p : Program) : Prop :=
  ∀ (n : NodeId) (x : Eval Value) (m : Machine), m.store.Strict p →
    EndsStrict p m.control (Value.Strict p) (x m) → v n x m = x m

theorem Settles.supervised {v : ι → Supervisor} (hv : ∀ i, (v i).SparesStrict p)
    {x : ι → Eval Value} (n : NodeId) (h : Settles l p k (Value.Strict p) x) :
    Settles l p k (Value.Strict p) fun i => v i n (x i) := by
  rintro m rfl hm
  obtain ⟨r, hr, hxr⟩ := h m rfl hm
  refine ⟨r, hr, ?_⟩
  filter_upwards [hxr] with i hi
  rw [hv i n (x i) m hm (hi ▸ hr), hi]

section

variable {v : ι → Supervisor} {reach fuel : ι → Nat} {resume : ι → NodeId → Eval Value}
variable {limit nesting : Nat}

/-- With enough fuel for the node and the calls that may still be entered, an evaluation
settles.  The measure is that of `evalWith_valid`; but here no node is ever resumed, so
there is no other way to come by fuel. -/
theorem Settles.evalWith (hp : p.WellFormed) (hstrict : p.Strict)
    (hv : ∀ i, (v i).SparesStrict p) (hreach : Tendsto reach l atTop)
    (hfuel : ∀ i, nesting ≤ fuel i) {cs : CallStack} {s : ScopeId} {n : NodeId}
    (hcs : cs.limit = limit) (hn : n.index < p.size)
    (hf : (limit - cs.depth) * p.size + n.index < nesting) :
    Settles l p ⟨s, cs⟩ (Value.Strict p) fun i =>
      (v i).evalWith p (reach i) (resume i) (fuel i) n := by
  induction nesting generalizing fuel cs s n with
  | zero => exact absurd hf (Nat.not_lt_zero _)
  | succ nesting ih =>
    obtain ⟨rest, rfl⟩ : ∃ rest : ι → Nat, fuel = fun i => rest i + 1 :=
      ⟨fun i => fuel i - 1, funext fun i => (Nat.sub_add_cancel (Nat.one_le_of_lt (hfuel i))).symm⟩
    have hrest : ∀ i, nesting ≤ rest i := fun i => Nat.le_of_succ_le_succ (hfuel i)
    -- the parts of a node stand before it, the body of a function anywhere
    have hc : StrictContexts l p ⟨s, cs⟩ (·.index < n.index) fun i =>
        ⟨p, reach i, (v i).evalWith p (reach i) (resume i) (rest i), resume i⟩ :=
      { wellFormed := hp
        strict := hstrict
        program := fun _ => rfl
        reach := hreach
        node := fun hm => Nat.lt_trans hm hn
        eval := fun hm => ih hrest hcs (Nat.lt_trans hm hn) (by omega)
        body := fun hm hpush =>
          ih hrest ((CallStack.depth_of_push hpush).2.2.trans hcs) hm
            (fuel_of_push hpush hcs hf hm) }
    exact (hc.evalNode hn fun _ hm => hm).supervised hv n

/-- The contexts of runs that have fuel for all calls. -/
theorem StrictContexts.of_fuel (hp : p.WellFormed) (hstrict : p.Strict)
    (hv : ∀ i, (v i).SparesStrict p) (hreach : Tendsto reach l atTop)
    (hfuel : ∀ i, (limit + 1) * p.size ≤ fuel i) (hk : k.calls.limit = limit) :
    StrictContexts l p k (·.index < p.size) fun i =>
      ⟨p, reach i, (v i).evalWith p (reach i) (resume i) (fuel i), resume i⟩ where
  wellFormed := hp
  strict := hstrict
  program _ := rfl
  reach := hreach
  node hn := hn
  eval hn := .evalWith hp hstrict hv hreach hfuel hk hn (fuel_of_le (Nat.le_refl _) hn)
  body hn hpush := .evalWith hp hstrict hv hreach hfuel
    ((CallStack.depth_of_push hpush).2.2.trans hk) hn (fuel_of_le (Nat.le_refl _) hn)

end

/-- A supervisor that does nothing. -/
theorem Supervisor.evalWith_id (p : Program) (reach : Nat) (resume : NodeId → Eval Value)
    (fuel : Nat) :
    Supervisor.evalWith (fun _ x => x) p reach resume fuel = LazyExpr.evalWith p reach resume fuel := by
  induction fuel with
  | zero => rfl
  | succ fuel ih =>
    funext n
    rw [Supervisor.evalWith, LazyExpr.evalWith, ih]

/-! ### Sessions -/

namespace Session

/-- Parts stand before the whole in the program, none of its nodes suspends anything, and
the store is strict. -/
structure Strict (s : Session) : Prop where
  wellFormed : s.program.WellFormed
  program : s.program.Strict
  store : s.store.Strict s.program

/-- What runs of a strict program may differ in: how deep values are looked at, how many
node evaluations may be nested in each other, how suspended nodes are evaluated, and who
is watching. -/
structure Setting (p : Program) where
  reach : Nat
  fuel : Nat
  resume : NodeId → Eval Value
  supervisor : Supervisor
  spares : supervisor.SparesStrict p

def Setting.context {p : Program} (i : Setting p) : Context :=
  ⟨p, i.reach, i.supervisor.evalWith p i.reach i.resume i.fuel, i.resume⟩

/-- A run ends with at most so many node evaluations nested in each other: from some
reach on, all settings that allow for as many give one outcome and leave one session
behind, both of them strict. -/
structure EndsStrictly (s : Session) (sink : Sink) (roots : List NodeId) (nesting : Nat)
    (o : Outcome Value) (t : Session) : Prop where
  value : ∀ v, o.result = .ok v → v.Strict s.program
  session : t.Strict
  run_eq : ∃ bound, ∀ i : Setting s.program, bound ≤ i.reach → nesting ≤ i.fuel →
    s.close (LazyExpr.run i.context roots (s.machine sink)) = (o, t)

variable {s : Session} {roots : List NodeId}

theorem Strict.endsStrictly (h : s.Strict) (hr : ∀ r ∈ roots, r.index < s.program.size)
    (sink : Sink) :
    ∃ o t, (o.Settled ∨ o.OverCapacity) ∧
      s.EndsStrictly sink roots ((s.limit + 1) * s.program.size) o t := by
  -- the settings that allow for so much nesting, with more and more reach
  let Enough := { i : Setting s.program // (s.limit + 1) * s.program.size ≤ i.fuel }
  have hc : StrictContexts (comap (fun i : Enough => i.1.reach) atTop) s.program
      (s.machine sink).control (·.index < s.program.size) fun i : Enough => i.1.context :=
    .of_fuel h.wellFormed h.program (fun i => i.1.spares) tendsto_comap (fun i => i.2) rfl
  obtain ⟨r, hends, hrun⟩ := hc.run hr (s.machine sink) rfl h.store
  obtain ⟨bound, hbound⟩ := eventually_atTop.1 (eventually_comap.1 hrun)
  have hclose : ∀ i : Setting s.program, bound ≤ i.reach →
      (s.limit + 1) * s.program.size ≤ i.fuel →
      s.close (LazyExpr.run i.context roots (s.machine sink)) = s.close r :=
    fun i hle hfuel => congrArg s.close (hbound i.reach hle ⟨i, hfuel⟩ rfl)
  refine ⟨(s.close r).1, (s.close r).2, ?_⟩
  cases hends with
  | @ok a m ha hk hm =>
    refine ⟨.inl (.inl ⟨a, rfl⟩), ?_, ⟨h.wellFormed, h.program, hm⟩, bound, hclose⟩
    rintro _ ⟨⟩
    exact ha
  | @stop e m he hk hm =>
    refine ⟨?_, ?_, ⟨h.wellFormed, h.program, hm⟩, bound, hclose⟩
    · cases e with
      | fault f => exact .inl (.inr ⟨f, rfl⟩)
      | overCapacity => exact .inr rfl
      | _ => exact he.elim
    · rintro _ ⟨⟩

/-- A session runs its programs in one of these settings. -/
theorem EndsStrictly.gives {sink : Sink} {o : Outcome Value} {t : Session}
    (h : s.EndsStrictly sink roots s.fuel o t) : s.Gives sink roots o t := by
  obtain ⟨bound, hbound⟩ := h.run_eq
  refine ⟨bound, fun reach hle => ?_⟩
  rw [← hbound ⟨reach, s.fuel, eval s.program s.fuel reach, fun _ x => x, fun _ _ _ _ _ => rfl⟩
    hle (Nat.le_refl _), Setting.context, Supervisor.evalWith_id]
  rfl

/-- A session whose global scope has strict bindings. -/
theorem strict_withBindings {p : Program} {bs : Bindings} (limit : Nat) (hp : p.WellFormed)
    (hstrict : p.Strict) (hbs : ∀ n b, bs.find? n = some b → b.value.Strict p) :
    (withBindings p bs limit).Strict := by
  refine ⟨hp, hstrict, fun {s n b} hb => ?_, rfl⟩
  obtain ⟨i⟩ := s
  cases i with
  | zero => exact hbs n b hb
  | succ i => cases hb

/-- A session with the prelude, once expressions that suspend nothing were added. -/
theorem strict_addAll (limit : Nat) (es : List Expr)
    (h : ((withPrelude limit).addAll es).2.program.Strict) :
    ((withPrelude limit).addAll es).2.Strict := by
  have hvalid := ((valid_withPrelude limit).addAll es).1
  have hfunction : ∀ {n b}, (Prelude.install .empty).2.find? n = some b →
      ∃ f, b.value = .function f := Prelude.find?_install
  obtain ⟨q, hq⟩ := (withPrelude limit).addAll_snd es
  rw [hq] at h hvalid ⊢
  unfold withPrelude at hvalid ⊢
  generalize Prelude.install .empty = r at hvalid hfunction
  obtain ⟨p, bs⟩ := r
  refine strict_withBindings limit hvalid.program h fun n b hb => ?_
  have hwithin : b.value.Within q.Has := hvalid.store.bound (s := ⟨0⟩) hb
  obtain ⟨f, hf⟩ := hfunction hb
  rw [hf] at hwithin ⊢
  exact .function (hwithin (.node f.body) (.function (by simp [Function.refs])))

end Session

/-! ### Walks through nested lists -/

/-- A list in a list, so many times over.  Those with an even number and those with an odd
one have no list in common. -/
def Value.nested (first : Nat) : Nat → Value
  | 0 => .void
  | depth + 1 => .list ⟨2 * depth + first⟩ [.forced (nested first depth)]

theorem Value.strict_nested (p : Program) (first depth : Nat) : (nested first depth).Strict p := by
  induction depth with
  | zero => exact .void
  | succ depth ih => exact strict_list_iff.2 (by simpa using ⟨_, rfl, ih⟩)

/-- A comparison comes to an end only with the nesting. -/
theorem Value.equal_nested {force : Thunk → Eval Value} (hforce : ∀ v, force (.forced v) = pure v)
    {reach depth : Nat} (h : reach < depth) (m : Machine) :
    Value.equal force reach (nested 0 depth) (nested 1 depth) m = .error .outOfReach m := by
  induction reach generalizing depth with
  | zero =>
    obtain ⟨depth, rfl⟩ : ∃ k, depth = k + 1 := ⟨depth - 1, by omega⟩
    rw [nested, nested, Value.equal, if_neg (by simp)]
    rfl
  | succ reach ih =>
    obtain ⟨depth, rfl⟩ : ∃ k, depth = k + 1 := ⟨depth - 1, by omega⟩
    rw [nested, nested, Value.equal, if_neg (by simp)]
    show (do
      let a ← force (.forced (nested 0 depth))
      let b ← force (.forced (nested 1 depth))
      if ← Value.equal force reach a b then Equality.allPairs force (Value.equal force reach) []
      else return false : Eval Bool) m = _
    rw [hforce, hforce, LawfulMonad.pure_bind, LawfulMonad.pure_bind]
    exact Eval.bind_of_error (ih (by omega))

/-- The comparison of `x` with `y`. -/
def Program.comparison : Program :=
  ((Session.bare 0).addAll [.binary .eq (.ident "x") (.ident "y")]).2.program

/-- A session in which `x` and `y` are nested so deep. -/
def Session.withNested (depth : Nat) : Session :=
  withBindings Program.comparison
    ⟨[(⟨1⟩, ⟨.nested 0 depth, .mutable⟩), (⟨2⟩, ⟨.nested 1 depth, .mutable⟩)]⟩ 0

theorem Session.strict_withNested (depth : Nat) : (withNested depth).Strict := by
  have hprogram := (Session.extends_addAll (s := .bare 0) Program.wellFormed_empty
    [.binary .eq (.ident "x") (.ident "y")]).1
  refine strict_withBindings 0 hprogram.wellFormed (by decide +kernel) fun n b hb => ?_
  have hmem := Bindings.mem_of_find? hb
  simp only [List.mem_cons, List.not_mem_nil, or_false, Prod.mk.injEq] at hmem
  rcases hmem with ⟨-, rfl⟩ | ⟨-, rfl⟩
  · exact Value.strict_nested _ _ _
  · exact Value.strict_nested _ _ _

/-- Three nodes are enough to exceed any reach. -/
theorem Session.comparison_of_nested_exceeds (reach : Nat) (sink : Sink) :
    ((withNested (reach + 2)).run reach sink [⟨2⟩]).1.Exceeds := by
  obtain ⟨hx, hy, hroot⟩ :
      Program.comparison.node? ⟨0⟩ = some ⟨.ident ⟨1⟩, .unlocated⟩ ∧
      Program.comparison.node? ⟨1⟩ = some ⟨.ident ⟨2⟩, .unlocated⟩ ∧
      Program.comparison.node? ⟨2⟩ = some ⟨.binary .eq ⟨0⟩ ⟨1⟩, .unlocated⟩ := by decide +kernel
  let m := (withNested (reach + 2)).machine sink
  let c := Program.comparison.context 3 reach 2
  have hbinary : c.binary .eq ⟨0⟩ ⟨1⟩ m = .error .outOfReach m := by
    refine (Eval.bind_of_ok (Context.evalNode_ident hx rfl)).trans ?_
    refine (Eval.bind_of_ok (Context.evalNode_ident hy rfl)).trans ?_
    refine Eval.bind_of_error ?_
    show (do
      let a ← c.force (.forced (.nested 0 (reach + 1)))
      let b ← c.force (.forced (.nested 1 (reach + 1)))
      if ← Value.equal c.force reach a b then Equality.allPairs c.force (Value.equal c.force reach) []
      else return false : Eval Bool) m = _
    have hforce : ∀ v, c.force (.forced v) = pure v := fun _ => rfl
    rw [hforce, hforce, LawfulMonad.pure_bind, LawfulMonad.pure_bind]
    exact Eval.bind_of_error (Value.equal_nested hforce (Nat.lt_succ_self reach) m)
  have heval : (Program.comparison.context 3 reach 3).eval ⟨2⟩ m = .error .outOfReach m := by
    show c.evalNode ⟨2⟩ m = _
    rw [Context.evalNode_apply hroot]
    show Eval.locate .unlocated (c.binary .eq ⟨0⟩ ⟨1⟩) m = _
    rw [Eval.locate, hbinary]
    rfl
  have hfuel : (withNested (reach + 2)).fuel = 3 := by
    show (0 + 1) * Program.comparison.size = 3
    decide +kernel
  have hrun : LazyExpr.run ((withNested (reach + 2)).context reach) [⟨2⟩] m =
      .error .outOfReach m := by
    rw [Session.context, hfuel]
    exact Eval.bind_of_error heval
  rw [Outcome.Exceeds, Outcome.StopsWith, Session.run, perform_result, hrun]

/-! ### Bounded nesting -/

/-- **Bounded nesting**: where nothing can be suspended and nothing is, every run gives a
value or a fault, or stops for want of room, once there is reach enough for the walks
through values; nothing comes to be suspended, and no more node evaluations are nested in
each other than every node once in each active call and once outside.  The walks have no
such bound: however large the reach is, it can be exceeded in a session of three nodes. -/
theorem strict_nesting_bounded (sink : Sink) :
    (∀ (s : Session) (roots : List NodeId), s.Strict →
      (∀ r ∈ roots, r.index < s.program.size) →
      ∃ o t, (o.Settled ∨ o.OverCapacity) ∧ s.Gives sink roots o t ∧
        s.EndsStrictly sink roots ((s.limit + 1) * s.program.size) o t) ∧
    ∀ reach : Nat, ∃ (s : Session) (roots : List NodeId), s.Strict ∧
      (s.limit + 1) * s.program.size = 3 ∧ (s.run reach sink roots).1.Exceeds := by
  refine ⟨fun s roots h hr => ?_, fun reach => ?_⟩
  · obtain ⟨o, t, hsettled, hends⟩ := h.endsStrictly hr sink
    exact ⟨o, t, hsettled, Session.EndsStrictly.gives hends, hends⟩
  · refine ⟨.withNested (reach + 2), [⟨2⟩], Session.strict_withNested _, ?_, ?_⟩
    · show (0 + 1) * Program.comparison.size = 3
      decide +kernel
    · exact Session.comparison_of_nested_exceeds reach sink

/-- A list that is put into itself, shown, compared and given back by a call, and then a
call that goes on without end. -/
def nestedLists : List Expr :=
  [.assign .mutable "x" (.text "ab"),
    .indexAssign "x" (.integer 0) (.ident "x"),
    .callNamed "println" [.ident "x"],
    .assign .mutable "f" (.lambda "f" ["y"] (.ident "y")),
    .binary .eq (.ident "x") (.callNamed "f" [.ident "x"]),
    .assign .mutable "g" (.lambda "g" [] (.callNamed "g" [])),
    .callNamed "g" []]

/-- A text that is repeated too often. -/
def overlongText : List Expr := [.binary .mul (.text "ab") (.decimal ⟨9000000000000000000, 0⟩)]

theorem nested_lists_bounded :
    let s := ((Session.withPrelude 2).addAll nestedLists).2
    let roots : List NodeId := [⟨13⟩, ⟨16⟩, ⟨19⟩, ⟨22⟩, ⟨27⟩, ⟨31⟩, ⟨33⟩]
    let s' := ((Session.withPrelude 2).addAll overlongText).2
    ((Session.withPrelude 2).addAll nestedLists).1 = .ok roots ∧ s.Strict ∧
      (∀ r ∈ roots, r.index < s.program.size) ∧
      (∃ o t, (o.Settled ∨ o.OverCapacity) ∧ s.Gives .emptyBuffer roots o t ∧
        s.EndsStrictly .emptyBuffer roots ((s.limit + 1) * s.program.size) o t) ∧
      ((Session.withPrelude 2).addAll overlongText).1 = .ok [⟨14⟩] ∧ s'.Strict ∧
      ∃ o t, o.OverCapacity ∧ s'.Gives .emptyBuffer [⟨14⟩] o t ∧
        s'.EndsStrictly .emptyBuffer [⟨14⟩] ((s'.limit + 1) * s'.program.size) o t := by
  intro s roots s'
  obtain ⟨hprogram, hroots, hadded, hprogram', hroots', hadded', hover⟩ :
      s.program.Strict ∧ (∀ r ∈ roots, r.index < s.program.size) ∧
      ((Session.withPrelude 2).addAll nestedLists).1 = .ok roots ∧
      s'.program.Strict ∧ (∀ r ∈ ([⟨14⟩] : List NodeId), r.index < s'.program.size) ∧
      ((Session.withPrelude 2).addAll overlongText).1 = .ok [⟨14⟩] ∧
      (s'.run 0 .emptyBuffer [⟨14⟩]).1.OverCapacity := by decide +kernel
  have hstrict : s.Strict := Session.strict_addAll 2 nestedLists hprogram
  have hstrict' : s'.Strict := Session.strict_addAll 2 overlongText hprogram'
  obtain ⟨o, t, -, ⟨bound, hgives⟩, hends⟩ :=
    (strict_nesting_bounded .emptyBuffer).1 s' [⟨14⟩] hstrict' hroots'
  have ho : o.OverCapacity := by
    have hnot : ¬ (s'.run 0 .emptyBuffer [⟨14⟩]).1.Exceeds := fun h => by
      cases hover.symm.trans h
    have hrun := (s'.run_of_le (Nat.zero_le bound) .emptyBuffer [⟨14⟩]).resolve_left hnot
    rw [hgives bound (Nat.le_refl _)] at hrun
    rw [← congrArg Prod.fst hrun] at hover
    exact hover
  exact ⟨hadded, hstrict, hroots, (strict_nesting_bounded .emptyBuffer).1 s roots hstrict hroots,
    hadded', hstrict', o, t, ho, ⟨bound, hgives⟩, hends⟩

end LazyExpr
