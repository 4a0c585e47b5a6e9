/-
LazyExpr/Proofs/Lockstep.lean

The evaluator keeps to every judgement.

For each function of the evaluator there is one lemma: on arguments that stand for each other,
its two families agree.  The lemmas follow the definitions, and none of them looks into the
machine; they go through the rules of `Judgement` alone.

How the nodes below are evaluated is a part of the contexts, and that they agree is a
hypothesis (`Judgement.Contexts`).  It asks for less than that all evaluations agree: children
of the node at hand from the stance that is taken now, bodies from inside of a call, suspended
nodes from any stance that is fit for them.  An induction may therefore use different measures
for the three.
-/
import LazyExpr.Proofs.Decimal.Notation
import LazyExpr.Proofs.Primitive

namespace LazyExpr

/-! ### Checks -/

theorem apt_items (v : Value) : Apt (Context.items v) := by
  cases v with
  | list i ts => exact .ok ts
  | _ => exact .error (by simp [Cause.Apt, Value.typeName])

theorem apt_instanceId (v : Value) : Apt (Context.instanceId v) := by
  cases v with
  | data i => exact .ok i
  | _ => exact .error (by simp [Cause.Apt, Value.typeName])

/-- No number is written as the words for what was expected. -/
theorem toText_ne_integer_index (n : Decimal) : "integer index" ≠ n.toText := by
  intro h
  have hmem : 'i' ∈ n.toChars := by
    rw [← String.toList_ofList (l := n.toChars), ← Decimal.toText, ← h]
    decide
  rcases Decimal.mem_toChars hmem with h | h | h <;> exact absurd h (by decide)

theorem apt_position (v : Value) (n : Nat) : Apt (Context.position v n) := by
  cases v with
  | number d =>
    intro cause h
    unfold Context.position at h
    dsimp only at h
    split at h
    · rw [dite_eq_iff] at h
      rcases h with ⟨_, h⟩ | ⟨hrange, h⟩
      · cases h
      · cases h
        show _ < 0 ∨ _ ≤ _
        omega
    · cases h
      exact toText_ne_integer_index d
  | _ => exact .error (by simp [Cause.Apt, Value.typeName])

/-- A list is forced level by level. -/
theorem Context.escape_list (c : Context) (d : Nat) (i : ListId) (items : List Thunk) :
    c.escape d (.list i items) =
      Eval.below (fun d => do
        let values ← items.mapM fun t => do
          let v ← c.force t
          c.escape d v
        Eval.newForced values) d := by
  cases d <;> rfl

namespace Judgement

open Relations

variable {p p' : Program}

/-! ### Contexts -/

/-- Two families of contexts for the programs, with reach for the same walks, that agree on
how suspended nodes are evaluated. -/
structure Resumes (J : Judgement p p') (c c' : J.Index → Context) : Prop where
  left : ∀ i, (c i).program = p
  right : ∀ i, (c' i).program = p'
  reach : J.Reach (fun i => (c i).reach) fun i => (c' i).reach
  resume : ∀ {w k n n' s s'}, J.suspended n n' → J.scope w s s' → J.fit k →
    J.Agree w (J.within k s s') J.value (fun i => (c i).resume n) fun i => (c' i).resume n'

/-- Two families of contexts agree on everything that the evaluation of one node needs. -/
structure Contexts (J : Judgement p p') (k : J.Stance) (child : NodeId → NodeId → Prop)
    (c c' : J.Index → Context) : Prop extends J.Resumes c c' where
  works : J.works k
  current : J.current k
  fit : J.fit k
  /-- What is called is looked at before it is evaluated. -/
  node : ∀ {n n'}, child n n' →
    Present J.dangles (J.OnNode J.node) (p.node? n) (p'.node? n')
  number : ∀ {a a'}, J.number a a' → Present J.dangles (· = ·) (p.number? a) (p'.number? a')
  eval : ∀ {w n n'}, child n n' →
    J.Agree w k J.value (fun i => (c i).eval n) fun i => (c' i).eval n'
  body : ∀ {w n n' s s' f f' k'}, J.node n n' → J.scope w s s' → J.entered k f f' k' →
    J.Agree w (J.within k' s s') J.value (fun i => (c i).eval n) fun i => (c' i).eval n'

/-- The judgement does not depend on the place that faults get. -/
def Locates (J : Judgement p p') : Prop :=
  ∀ {w k} {α β : Type} {A : J.World → α → β → Prop} {x : J.Index → Eval α}
    {y : J.Index → Eval β} (span : Span), J.Agree w k A x y →
    J.Agree w k A (fun i => Eval.locate span (x i)) fun i => Eval.locate span (y i)

variable {J : Judgement p p'} {w : J.World} {k : J.Stance} {child : NodeId → NodeId → Prop}
variable {c c' : J.Index → Context}

namespace Resumes

variable (hc : J.Resumes c c')

include hc

theorem left_text (i : J.Index) (n : Name) : (c i).text n = p.names.text n := by
  rw [Context.text, hc.left]

theorem right_text (i : J.Index) (n : Name) : (c' i).text n = p'.names.text n := by
  rw [Context.text, hc.right]

/-- Thunks have scopes of their own, so the current ones do not matter. -/
theorem force_holding {V : J.World → Value → Value → Prop} (hk : J.fit k)
    (hV : ∀ {w n n' v v'}, J.suspended n n' → J.value w v v' → V w v v') {t t' : Thunk}
    (ht : J.Holding V w t t') :
    J.Agree w k V (fun i => (c i).force t) fun i => (c' i).force t' := by
  cases ht with
  | forced hv => exact .pure hv
  | deferred hn hs => exact (J.inScope hs (hc.resume hn hs hk)).imp (hV hn)

theorem force (hk : J.fit k) {t t' : Thunk} (ht : J.thunk w t t') :
    J.Agree w k J.value (fun i => (c i).force t) fun i => (c' i).force t' :=
  hc.force_holding hk (fun _ hv => hv) ht

theorem forces (hk : J.fit k) : J.Forces k (fun i => (c i).force) fun i => (c' i).force where
  value _ _ _ ht := hc.force hk ht
  rank {n} _ _ _ ht := hc.force_holding (V := J.rank n) hk J.rank_suspended ht

theorem display (hk : J.fit k) {v v' : Value} (hv : J.value w v v') :
    J.Agree w k (fun _ => Eq) (fun i => (c i).display v) fun i => (c' i).display v' := by
  simp only [Context.display, hc.left, hc.right]
  exact display_agree hc.reach (hc.forces hk) hv

/-- The induction is on the rank, and the depth goes down with it. -/
theorem escape_rank (hk : J.fit k) {n : Nat} {d d' : J.Index → Nat} (hd : J.Depth n d d')
    {v v' : Value} (hv : J.rank n w v v') :
    J.Agree w k J.value (fun i => (c i).escape (d i) v) fun i => (c' i).escape (d' i) v' := by
  induction n using Nat.strongRecOn generalizing w d d' v v' with
  | ind n ih =>
    have hvalue := J.rank_value hv
    cases J.form hvalue
    case list =>
      simp only [Context.escape_list]
      refine J.below hd hv (.list _ _) fun {m e e'} hn he => ?_
      subst hn
      refine (Agree.mapM (stable_rank m).holding stable_value (J.rank_list hv)
        fun w t t' ht => ?_).bind fun vs vs' _ hvs => agree_newForced hvs
      exact ((hc.forces hk).rank ht).bind fun u u' _ hu => ih m (Nat.lt_succ_self m) he hu
    all_goals
      unfold Context.escape
      exact .pure hvalue

theorem escape (hk : J.fit k) {d d' : J.Index → Nat} (hd : J.Reach d d') {v v' : Value}
    (hv : J.value w v v') :
    J.Agree w k J.value (fun i => (c i).escape (d i) v) fun i => (c' i).escape (d' i) v' := by
  obtain ⟨n, hn, hv, -⟩ := J.rank_pair hd hv hv
  exact hc.escape_rank hk hn hv

theorem body_of_eval (hk : J.fit k) {f g : Function} {s s' : ScopeId} (hs : J.scope w s s')
    (hf : J.Agree w (J.within k s s') J.value (fun i => (c i).eval f.body)
      fun i => (c' i).eval g.body) :
    J.Agree w k J.value (fun i => (c i).body f s) fun i => (c' i).body g s' :=
  (J.inScope hs hf).bind fun _ _ _ hv => hc.escape hk hc.reach hv

theorem calleeLabel_eq {a a' : Kind} {v v' : Value} (ha : J.OnKind J.node a a')
    (hv : J.value w v v') : ∃ label, (∀ i, (c i).calleeLabel a v = label) ∧
      ∀ i, (c' i).calleeLabel a' v' = label := by
  cases ha with
  | @ident n n' h =>
    exact ⟨p.names.text n, fun i => hc.left_text i n,
      fun i => (hc.right_text i n').trans (J.text_eq h).symm⟩
  | _ =>
    cases J.form hv with
    | @function f f' hf =>
      refine ⟨if f.name.isEmpty then "<lambda>" else p.names.text f.name, fun i => ?_, fun i => ?_⟩
      · show (if f.name.isEmpty then "<lambda>" else (c i).text f.name) = _
        rw [hc.left_text]
      · show (if f'.name.isEmpty then "<lambda>" else (c' i).text f'.name) = _
        rw [hc.right_text, isEmpty_eq hf.name, J.text_eq hf.name]
    | _ => exact ⟨_, fun _ => rfl, fun _ => rfl⟩

end Resumes

/-! ### Lists -/

theorem position_rel {v v' : Value} {n n' : Nat} (hv : J.value w v v') (hn : n = n') :
    OnExcept (fun i i' => i.val = i'.val) (Context.position v n) (Context.position v' n') := by
  subst hn
  cases J.form hv with
  | number m =>
    rcases Context.position (.number m) n with e | i
    · exact .error e
    · exact .ok rfl
  | _ => exact .error _

theorem items_rel {v v' : Value} (hv : J.value w v v') :
    OnExcept (List.Forall₂ (J.thunk w)) (Context.items v) (Context.items v') := by
  cases J.form hv with
  | list h => exact .ok h
  | _ => exact .error _

theorem instanceId_rel {v v' : Value} (hv : J.value w v v') :
    OnExcept (J.data w) (Context.instanceId v) (Context.instanceId v') := by
  cases J.form hv with
  | data hi => exact .ok hi
  | _ => exact .error _

theorem agree_items {v v' : Value} (hk : J.works k) (hv : J.value w v v') :
    J.Agree w k (fun w => List.Forall₂ (J.thunk w)) (fun _ => Eval.check (Context.items v))
      fun _ => Eval.check (Context.items v') :=
  agree_check hk (apt_items v) (items_rel hv)

theorem agree_position {v v' : Value} {n n' : Nat} (hk : J.works k) (hv : J.value w v v')
    (hn : n = n') :
    J.Agree w k (fun _ i i' => i.val = i'.val) (fun _ => Eval.check (Context.position v n))
      fun _ => Eval.check (Context.position v' n') :=
  agree_check hk (apt_position v n) (position_rel hv hn)

theorem agree_instanceId {v v' : Value} (hk : J.works k) (hv : J.value w v v') :
    J.Agree w k J.data (fun _ => Eval.check (Context.instanceId v))
      fun _ => Eval.check (Context.instanceId v') :=
  agree_check hk (apt_instanceId v) (instanceId_rel hv)

namespace Contexts

variable (hc : J.Contexts k child c c')

include hc

theorem index {a a' i i' : NodeId} (ha : child a a') (hi : child i i') :
    J.Agree w k J.value (fun j => (c j).index a i) fun j => (c' j).index a' i' := by
  unfold Context.index
  refine (hc.eval ha).bind fun v v' _ hv => ?_
  refine (hc.eval hi).bind fun u u' h₁ hu => ?_
  refine (agree_items hc.works (J.value_mono h₁ hv)).bind fun xs ys h₂ hxs => ?_
  refine (agree_position hc.works (J.value_mono h₂ hu) hxs.length_eq).bind fun j j' h₃ hj => ?_
  refine hc.force hc.fit (stable_thunk h₃ ?_)
  have h := hxs.get j.isLt (hj ▸ j'.isLt)
  simpa only [List.get_eq_getElem, hj] using h

theorem indexAssign {n n' : Name} {i i' a a' : NodeId} (hn : J.name n n') (hi : child i i')
    (ha : child a a') :
    J.Agree w k J.value (fun j => (c j).indexAssign n i a)
      fun j => (c' j).indexAssign n' i' a' := by
  simp only [Context.indexAssign, hc.left_text, hc.right_text, J.text_eq hn]
  refine (J.lookup hc.current hn).bind fun b b' _ hb => ?_
  cases hb with
  | none => exact J.raise hc.works trivial
  | some hb =>
    -- the list is read now, and what is done to it while index and value run is not seen
    refine (agree_items hc.works hb.value).bind fun xs ys _ hxs => ?_
    refine (hc.eval hi).bind fun u u' h₁ hu => ?_
    refine (agree_position hc.works hu hxs.length_eq).bind fun j j' h₂ hj => ?_
    refine (hc.eval ha).bind fun v v' h₃ hv => ?_
    have hset := forall₂_set (stable_thunk.forall₂ (J.le_trans (J.le_trans h₁ h₂) h₃) hxs)
      (.forced hv) j'
    rw [hj]
    refine (J.newList hset).bind fun l l' _ hl => ?_
    -- the mutability that is found now is the one the new binding gets
    have finish : ∀ {w} (m : Mutability), J.value w l l' → J.Agree w k J.value
        (fun _ => do
          if ← Eval.assign n ⟨l, m⟩ then return .void
          else Eval.raise (.immutableBinding (p'.names.text n')))
        (fun _ => do
          if ← Eval.assign n' ⟨l', m⟩ then return .void
          else Eval.raise (.immutableBinding (p'.names.text n'))) := by
      intro w m hl
      have hb : J.binding w ⟨l, m⟩ ⟨l', m⟩ := ⟨hl, rfl⟩
      refine (J.assign hc.current hn hb).bind fun r r' _ hr => ?_
      subst hr
      exact .ite Iff.rfl (.pure J.value_void) (J.raise hc.works trivial)
    refine (J.lookup hc.current hn).bind fun o o' h₄ ho => ?_
    have hl := J.value_mono h₄ hl
    cases ho with
    | none => exact finish _ hl
    | @some b b' ho =>
      dsimp only
      rw [ho.mutability]
      exact finish _ hl

/-! ### Calls -/

/-- What is called is alike when it is an identifier, and when it is not. -/
theorem callee {n n' : NodeId} (hn : child n n') {a a' : Kind} (ha : J.OnKind J.node a a') :
    J.Agree w k J.value (fun i => (c i).callee n a) fun i => (c' i).callee n' a' := by
  cases ha with
  | ident h =>
    simp only [Context.callee, hc.left_text, hc.right_text, J.text_eq h]
    refine (J.lookup hc.current h).bind fun b b' _ hb => ?_
    cases hb with
    | none => exact J.raise hc.works trivial
    | some hb => exact .pure hb.value
  | _ => exact hc.eval hn

theorem bindArguments {s s' : ScopeId} (hs : J.own w s s') {as as' : List (Name × NodeId)}
    (h : List.Forall₂ (fun a b => J.name a.1 b.1 ∧ child a.2 b.2) as as') :
    J.Agree w k (fun _ _ _ => True) (fun i => (c i).bindArguments s as)
      fun i => (c' i).bindArguments s' as' := by
  induction h generalizing w with
  | nil => exact .pure trivial
  | @cons a a' _ _ ha _ ih =>
    unfold Context.bindArguments
    refine (hc.eval ha.2).bind fun v v' h₁ hv => ?_
    have hs := J.own_mono h₁ hs
    exact (J.define hs ha.1 hv).bind fun _ _ h₂ _ => ih (J.own_mono h₂ hs)

omit hc in
theorem callScope (hk : J.current k) {f f' : Function} (hf : J.OnFunction f f') :
    J.Agree w k J.own (fun _ => Context.callScope f) fun _ => Context.callScope f' := by
  unfold Context.callScope
  refine (J.copyScope hk).bind fun s s' _ hs => ?_
  refine (J.isBound hs hf.name).bind fun b b' h₁ hb => ?_
  subst hb
  have hs := J.own_mono h₁ hs
  rw [isEmpty_eq hf.name]
  refine .ite Iff.rfl ?_ (.pure hs)
  exact (J.define hs hf.name (J.value_function hf)).bind fun _ _ h₂ _ => .pure (J.own_mono h₂ hs)

theorem call {span : Span} (hspan : J.enters k span) {n n' : NodeId} {as as' : List NodeId}
    (hn : child n n') (has : List.Forall₂ child as as') :
    J.Agree w k J.value (fun i => (c i).call span n as) fun i => (c' i).call span n' as' := by
  simp only [Context.call, Context.node, hc.left, hc.right]
  refine (agree_present (A := fun _ => J.OnNode J.node) (hc.node hn)).bind fun a a' _ ha => ?_
  refine (hc.callee hn ha.kind).bind fun v v' _ hv => ?_
  -- what a message calls the callee does not depend on the index
  obtain ⟨label, hl, hl'⟩ := hc.calleeLabel_eq ha.kind hv
  cases J.form hv with
  | @function f f' hf =>
    simp only [hl, hl']
    refine (callScope hc.current hf).bind fun s s' _ hs => ?_
    -- the table is made before the arguments are counted
    have harity : f.arity = f'.arity := hf.params.length_eq
    rw [has.length_eq, harity]
    by_cases h : as'.length = f'.arity
    · simp only [if_pos h]
      refine (hc.bindArguments hs (forall₂_prod hf.params has)).bind fun _ _ h₁ _ => ?_
      have hs := J.own_scope (J.own_mono h₁ hs)
      refine J.inFrame hspan hf.name fun k' hk' => ?_
      exact hc.body_of_eval (J.fit_entered hk') hs (hc.body hf.body hs hk')
    · simp only [if_neg h]
      exact J.raise hc.works (Ne.symm h)
  | _ =>
    simp only [hl, hl']
    exact J.raise hc.works trivial

/-! ### Data -/

theorem field {r r' : NodeId} {n n' : Name} (hr : child r r') (hn : J.name n n') :
    J.Agree w k J.value (fun i => (c i).field r n) fun i => (c' i).field r' n' := by
  simp only [Context.field, hc.left_text, hc.right_text, hc.left, hc.right, J.text_eq hn]
  refine (hc.eval hr).bind fun v v' _ hv => ?_
  refine (agree_instanceId hc.works hv).bind fun i i' _ hi => ?_
  refine (J.instanceAt hi).bind fun d d' _ hd => ?_
  have hf := field_rel hd hn
  have htag := tag_eq hd
  generalize d.field? n = o, d'.field? n' = o' at hf
  cases hf with
  | some ht => exact hc.force hc.fit ht
  | none =>
    dsimp only
    rw [htag]
    exact J.raise hc.works trivial

theorem fieldAssign {r r' a a' : NodeId} {n n' : Name} (hr : child r r') (hn : J.name n n')
    (ha : child a a') :
    J.Agree w k J.value (fun i => (c i).fieldAssign r n a)
      fun i => (c' i).fieldAssign r' n' a' := by
  simp only [Context.fieldAssign, hc.left_text, hc.right_text, hc.left, hc.right, J.text_eq hn]
  refine (hc.eval hr).bind fun v v' _ hv => ?_
  refine (agree_instanceId hc.works hv).bind fun i i' _ hi => ?_
  refine (hc.eval ha).bind fun u u' h₁ hu => ?_
  refine (J.instanceAt (J.data_mono h₁ hi)).bind fun d d' h₂ hd => ?_
  have hf := field_rel hd hn
  have htag := tag_eq hd
  generalize d.field? n = o, d'.field? n' = o' at hf
  cases hf with
  | some ht =>
    exact (J.setField (J.data_mono h₂ (J.data_mono h₁ hi)) hn (J.value_mono h₂ hu)).bind
      fun _ _ _ _ => .pure J.value_void
  | none =>
    dsimp only
    rw [htag]
    exact J.raise hc.works trivial

/-! ### Primitive functions -/

omit hc in
theorem numeric (hk : J.works k) {f : Decimal → Except Decimal.Error Decimal}
    (hf : ∀ n, Decimal.Computes (f n)) {v v' : Value} (hv : J.value w v v') :
    J.Agree w k J.value (fun _ => Context.numeric f v) fun _ => Context.numeric f v' := by
  cases J.form hv with
  | number n => exact agree_decimal hk (hf n)
  | _ => exact J.raise hk (by simp [Cause.Apt, Value.typeName])

theorem applyIntrinsic (f : Intrinsic) {v v' : Value} (hv : J.value w v v') :
    J.Agree w k J.value (fun i => (c i).applyIntrinsic f v)
      fun i => (c' i).applyIntrinsic f v' := by
  unfold Context.applyIntrinsic
  cases f with
  | print =>
    refine (hc.display hc.fit hv).bind fun t t' _ ht => ?_
    subst ht
    exact (J.write t).bind fun _ _ _ _ => .pure J.value_void
  | println =>
    refine (hc.display hc.fit hv).bind fun t t' _ ht => ?_
    subst ht
    exact (J.writeLine t).bind fun _ _ _ _ => .pure J.value_void
  | sqrt => exact numeric hc.works Decimal.computes_sqrt hv
  | sin => exact numeric hc.works Decimal.computes_sin hv
  | cos => exact numeric hc.works Decimal.computes_cos hv
  | tan => exact numeric hc.works Decimal.computes_tan hv

theorem intrinsic {f : Intrinsic} {as as' : List NodeId} (hf : J.has (.intrinsic f as))
    (h : List.Forall₂ child as as') :
    J.Agree w k J.value (fun i => (c i).intrinsic f as) fun i => (c' i).intrinsic f as' := by
  cases h with
  | nil => exact J.ill_formed _ hc.works hf (by simp)
  | cons ha h =>
    cases h with
    | cons _ _ => exact J.ill_formed _ hc.works hf (by simp)
    | nil => exact (hc.eval ha).bind fun v v' _ hv => hc.applyIntrinsic f hv

/-! ### Nodes -/

theorem statements {ns ns' : List NodeId} (h : List.Forall₂ child ns ns') :
    J.Agree w k (fun _ _ _ => True) (fun i => (c i).statements ns)
      fun i => (c' i).statements ns' := by
  induction h generalizing w with
  | nil => exact .pure trivial
  | cons hn _ ih => exact (hc.eval hn).discard.bind fun _ _ _ _ => ih

theorem ifElse {a a' b b' e e' : NodeId} (ha : child a a') (hb : child b b') (he : child e e') :
    J.Agree w k J.value (fun i => (c i).ifElse a b e) fun i => (c' i).ifElse a' b' e' := by
  unfold Context.ifElse
  refine (hc.eval ha).bind fun v v' _ hv => ?_
  cases J.form hv with
  | bool t =>
    cases t with
    | true => exact hc.eval hb
    | false => exact hc.eval he
  | _ => exact J.raise hc.works (by simp [Cause.Apt, Value.typeName])

theorem ident {n n' : Name} (hn : J.name n n') :
    J.Agree w k J.value (fun i => (c i).ident n) fun i => (c' i).ident n' := by
  simp only [Context.ident, hc.left_text, hc.right_text, J.text_eq hn]
  refine (J.lookup hc.current hn).bind fun b b' _ hb => ?_
  cases hb with
  | some hb => exact .pure hb.value
  | none => exact J.raise hc.works trivial

theorem assign {n n' : Name} {a a' : NodeId} (m : Mutability) (hn : J.name n n')
    (ha : child a a') :
    J.Agree w k J.value (fun i => (c i).assign n a m) fun i => (c' i).assign n' a' m := by
  simp only [Context.assign, hc.left_text, hc.right_text, J.text_eq hn]
  refine (hc.eval ha).bind fun v v' _ hv => ?_
  have hb : J.binding _ ⟨v, m⟩ ⟨v', m⟩ := ⟨hv, rfl⟩
  refine (J.assign hc.current hn hb).bind fun r r' h₁ hr => ?_
  subst hr
  exact .ite Iff.rfl (.pure (J.value_mono h₁ hv)) (J.raise hc.works trivial)

theorem binary {a a' b b' : NodeId} (op : BinaryOp) (ha : child a a') (hb : child b b') :
    J.Agree w k J.value (fun i => (c i).binary op a b) fun i => (c' i).binary op a' b' := by
  unfold Context.binary
  refine (hc.eval ha).bind fun v v' _ hv => ?_
  refine (hc.eval hb).bind fun u u' h₁ hu => ?_
  exact apply_agree hc.works hc.reach (hc.forces hc.fit) op (J.value_mono h₁ hv) hu

omit hc in
theorem list (hk : J.current k) {is is' : List NodeId} (h : List.Forall₂ J.suspended is is') :
    J.Agree w k J.value (fun _ => Context.list is) fun _ => Context.list is' := by
  unfold Context.list
  refine (J.get hk).bind fun m m' _ hm => J.newList ?_
  induction h with
  | nil => exact .nil
  | cons hn _ ih => exact .cons (.deferred hn hm) ih

theorem evalKind {span : Span} {a a' : Kind} (hhas : J.has a)
    (henters : ∀ n as, a = .call n as → J.enters k span) (h : J.OnKind child a a') :
    J.Agree w k J.value (fun i => (c i).evalKind span a) fun i => (c' i).evalKind span a' := by
  cases h with
  | number h =>
    simp only [Context.evalKind, hc.left, hc.right]
    refine (agree_present (A := fun _ => Eq) (hc.number h)).bind fun d d' _ hd => ?_
    subst hd
    exact .pure (J.value_number d)
  | bool b => exact .pure (J.value_bool b)
  | char x => exact .pure (J.value_char x)
  | text h =>
    simp only [Context.evalKind, hc.left_text, hc.right_text, J.text_eq h]
    exact agree_newForced (forall₂_map_self J.value_char _)
  | void => exact .pure J.value_void
  | ident h => exact hc.ident h
  | assign m hn hv => exact hc.assign m hn hv
  | seq hs hr => exact (hc.statements hs).bind fun _ _ _ _ => hc.eval hr
  | ifElse ha hb he => exact hc.ifElse ha hb he
  | lambda hf => exact .pure (J.value_function hf)
  | call hf has => exact hc.call (henters _ _ rfl) hf has
  | binary op ha hb => exact hc.binary op ha hb
  | list h => exact list hc.current h
  | index ha hi => exact hc.index ha hi
  | indexAssign hn hi hv => exact hc.indexAssign hn hi hv
  | field hr hn => exact hc.field hr hn
  | fieldAssign hr hn hv => exact hc.fieldAssign hr hn hv
  | declare h => exact J.declare hc.left hc.right hc.works h
  | construct ht hv hfs =>
    exact J.construct hc.left hc.right hc.works hc.current hhas ht hv hfs
  | intrinsic f has => exact hc.intrinsic hhas has

theorem evalNode (hJ : J.Locates) {n n' : NodeId}
    (hhas : ∀ a, p.node? n = some a → J.has a.kind) (henters : ∀ span, J.enters k span)
    (h : Present J.dangles (J.OnNode child) (p.node? n) (p'.node? n')) :
    J.Agree w k J.value (fun i => (c i).evalNode n) fun i => (c' i).evalNode n' := by
  simp only [Context.evalNode, Context.node, hc.left, hc.right]
  have hnode : Present J.dangles (fun a a' => J.has a.kind ∧ J.OnNode child a a') (p.node? n)
      (p'.node? n') := by
    generalize p.node? n = o, p'.node? n' = o' at h hhas
    cases h with
    | some ha => exact .some ⟨hhas _ rfl, ha⟩
    | none hd => exact .none hd
  refine (agree_present (A := fun _ a a' => J.has a.kind ∧ J.OnNode child a a') hnode).bind
    fun a a' _ ha => ?_
  rw [← ha.2.span]
  exact hJ a.span (hc.evalKind ha.1 (fun _ _ _ => henters a.span) ha.2.kind)

theorem run {rs rs' : List NodeId} (h : List.Forall₂ child rs rs') :
    J.Agree w k J.value (fun i => LazyExpr.run (c i) rs) fun i => LazyExpr.run (c' i) rs' := by
  have go : ∀ {w v v'}, J.value w v v' →
      J.Agree w k J.value (fun i => runFrom (c i) v rs) fun i => runFrom (c' i) v' rs' := by
    induction h with
    | nil => exact fun hv => .pure hv
    | cons hn _ ih => exact fun _ => (hc.eval hn).bind fun _ _ _ hv => ih hv
  exact go J.value_void

end Contexts

end Judgement

end LazyExpr
