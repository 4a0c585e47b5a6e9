/-
LazyExpr/Proofs/Judgement.lean

What the evaluator is proved against.

Several judgements are made about evaluations: that two of them end alike, that one refers
to nothing but what is on record, where its faults come from, that it comes to an end.  Each
of them has rules for sequences of steps and for the ways in which a step touches the
machine, and the evaluator does nothing else; so that a judgement holds of the evaluator is
one proof for all of them, which is given in `Primitive` and `Lockstep`.

`Judgement` is what that proof rests on.  A judgement compares two families of steps over
one index, which work on things of two programs that stand for each other (`Relations`).
What stands for what depends on what has been made so far, the world, and only ever becomes
more.  In which scopes a family is run, inside of which calls, and whether it may raise
faults of its own, is its stance.  Where there is nothing to compare, both families are the
same, or the second one is not looked at; where there is one step, there is one index.
-/
import LazyExpr.Proofs.Likeness

namespace LazyExpr

/-! ### Checks and references -/

/-- Checks end alike: in results that are, or in the same cause. -/
inductive OnExcept {α β : Type} (R : α → β → Prop) : Except Cause α → Except Cause β → Prop
  | ok {a : α} {b : β} : R a b → OnExcept R (.ok a) (.ok b)
  | error (c : Cause) : OnExcept R (.error c) (.error c)

theorem OnExcept.refl {α : Type} (x : Except Cause α) : OnExcept (· = ·) x x := by
  rcases x with c | a
  · exact .error c
  · exact .ok rfl

/-- References into two programs lead to things that are alike, or, if references may
dangle, both to nothing. -/
inductive Present {α β : Type} (dangles : Prop) (A : α → β → Prop) : Option α → Option β → Prop
  | some {a b} : A a b → Present dangles A (some a) (some b)
  | none : dangles → Present dangles A none none

theorem Present.self {α : Type} {dangles : Prop} {A : α → α → Prop} (hd : dangles)
    (hA : ∀ a, A a a) (o : Option α) : Present dangles A o o := by
  cases o with
  | none => exact .none hd
  | some a => exact .some (hA a)

/-! ### Causes -/

/-- What can be told of a cause that a step raises from the cause alone: the kinds of a
mismatch are two, the index is not in the list, the numbers of arguments differ.  Causes of
which more has to be known are not among these. -/
def Cause.Apt : Cause → Prop
  | illFormed _ => False
  | typeMismatch expected got => expected ≠ got
  | indexOutOfBounds index length => index < 0 ∨ length ≤ index
  | constructorMismatch _ _ _ _ => False
  | arityMismatch _ expected got => expected ≠ got
  | recursionLimit _ => False
  | other _ => False
  | _ => True

/-- All that a check may find is apt. -/
def Apt {α : Type} (x : Except Cause α) : Prop := ∀ cause, x = .error cause → cause.Apt

theorem Apt.ok {α : Type} (a : α) : Apt (.ok a) := by
  intro cause h
  cases h

theorem Apt.error {α : Type} {cause : Cause} (h : cause.Apt) :
    Apt (.error cause : Except Cause α) := by
  rintro _ ⟨⟩
  exact h

theorem Apt.bind {α β : Type} {x : Except Cause α} {f : α → Except Cause β} (hx : Apt x)
    (hf : ∀ a, Apt (f a)) : Apt (x >>= f) := by
  rcases x with cause | a
  · exact .error (hx cause rfl)
  · exact hf a

/-! ### Things that are made of others -/

namespace Vocabulary

/-- Values have the same form, and what they are made of is alike. -/
inductive OnForm (L : Vocabulary) (data : InstanceId → InstanceId → Prop)
    (thunk : Thunk → Thunk → Prop) : Value → Value → Prop
  | number (n : Decimal) : OnForm L data thunk (.number n) (.number n)
  | bool (b : Bool) : OnForm L data thunk (.bool b) (.bool b)
  | char (c : Char) : OnForm L data thunk (.char c) (.char c)
  | list {i j : ListId} {xs ys : List Thunk} : List.Forall₂ thunk xs ys →
      OnForm L data thunk (.list i xs) (.list j ys)
  | function {f g : Function} : L.OnFunction f g →
      OnForm L data thunk (.function f) (.function g)
  | data {i j : InstanceId} : data i j → OnForm L data thunk (.data i) (.data j)
  | void : OnForm L data thunk .void .void

theorem OnContent.imp {L : Vocabulary} {scope scope' : ScopeId → ScopeId → Prop}
    {value value' : Value → Value → Prop} (hs : ∀ {s s'}, scope s s' → scope' s s')
    (hv : ∀ {v v'}, value v v' → value' v v') {t t' : Thunk} (h : L.OnContent scope value t t') :
    L.OnContent scope' value' t t' := by
  cases h with
  | forced h => exact .forced (hv h)
  | deferred hn h => exact .deferred hn (hs h)

theorem OnRecord.imp {L : Vocabulary} {thunk thunk' : Thunk → Thunk → Prop}
    (ht : ∀ {t t'}, thunk t t' → thunk' t t') {d d' : Instance} (h : L.OnRecord thunk d d') :
    L.OnRecord thunk' d d' :=
  ⟨h.type, h.variant, h.fields.imp fun _ _ hf => ⟨hf.name, ht hf.thunk⟩⟩

end Vocabulary

/-! ### Relations -/

/-- What stands for what, in each world. -/
structure Relations (p p' : Program) extends Vocabulary where
  /-- What has been made so far. -/
  World : Type
  /-- More has been made. -/
  le : World → World → Prop
  value : World → Value → Value → Prop
  scope : World → ScopeId → ScopeId → Prop
  /-- Scopes that nothing else refers to yet. -/
  own : World → ScopeId → ScopeId → Prop
  data : World → InstanceId → InstanceId → Prop
  -- worlds
  le_trans : ∀ {a b c}, le a b → le b c → le a c
  value_mono : ∀ {w w' v v'}, le w w' → value w v v' → value w' v v'
  scope_mono : ∀ {w w' s s'}, le w w' → scope w s s' → scope w' s s'
  own_mono : ∀ {w w' s s'}, le w w' → own w s s' → own w' s s'
  data_mono : ∀ {w w' i i'}, le w w' → data w i i' → data w' i i'
  -- references
  own_scope : ∀ {w s s'}, own w s s' → scope w s s'
  text_eq : ∀ {n n'}, name n n' → p.names.text n = p'.names.text n'
  empty_iff : ∀ {n n'}, name n n' → (n = Name.empty ↔ n' = Name.empty)
  name_iff : ∀ {a a' b b'}, name a a' → name b b' → (a = b ↔ a' = b')
  node_iff : ∀ {a a' b b'}, node a a' → node b b' → (a = b ↔ a' = b')
  data_iff : ∀ {w a a' b b'}, data w a a' → data w b b' → (a = b ↔ a' = b')
  list_iff : ∀ {w i i' j j' xs xs' ys ys'}, value w (.list i xs) (.list i' xs') →
    value w (.list j ys) (.list j' ys') → (i = j ↔ i' = j')
  -- values
  value_number : ∀ {w} n, value w (.number n) (.number n)
  value_bool : ∀ {w} b, value w (.bool b) (.bool b)
  value_char : ∀ {w} c, value w (.char c) (.char c)
  value_void : ∀ {w}, value w .void .void
  value_function : ∀ {w f f'}, toVocabulary.OnFunction f f' → value w (.function f) (.function f')
  form : ∀ {w v v'}, value w v v' →
    toVocabulary.OnForm (data w) (toVocabulary.OnContent (scope w) (value w)) v v'

namespace Relations

variable {p p' : Program} (R : Relations p p')

/-- What stays true when more is made. -/
def Stable {α β : Type} (A : R.World → α → β → Prop) : Prop :=
  ∀ ⦃w w'⦄, R.le w w' → ∀ ⦃a b⦄, A w a b → A w' a b

/-- Thunks that hold values of some kind. -/
def Holding (V : R.World → Value → Value → Prop) (w : R.World) : Thunk → Thunk → Prop :=
  R.OnContent (R.scope w) (V w)

def thunk (w : R.World) : Thunk → Thunk → Prop := R.Holding R.value w

def binding (w : R.World) : Binding → Binding → Prop := OnBound (R.value w)

def record (w : R.World) : Instance → Instance → Prop := R.OnRecord (R.thunk w)

variable {R}

theorem Stable.holding {V : R.World → Value → Value → Prop} (hV : R.Stable V) :
    R.Stable (R.Holding V) :=
  fun _ _ h _ _ ht => ht.imp (R.scope_mono h) fun hv => hV h hv

theorem stable_value : R.Stable R.value := fun _ _ h _ _ => R.value_mono h

theorem stable_thunk : R.Stable R.thunk := stable_value.holding

theorem stable_eq {α : Type} : R.Stable fun _ (a b : α) => a = b := fun _ _ _ _ _ h => h

theorem Stable.forall₂ {α β : Type} {A : R.World → α → β → Prop} (hA : R.Stable A) :
    R.Stable fun w => List.Forall₂ (A w) :=
  fun _ _ h _ _ hs => hs.imp fun _ _ hab => hA h hab

theorem typeName_eq {w : R.World} {v v' : Value} (h : R.value w v v') :
    v.typeName = v'.typeName := by
  cases R.form h <;> rfl

theorem isChar_eq {w : R.World} {v v' : Value} (h : R.value w v v') : v.isChar = v'.isChar := by
  cases R.form h <;> rfl

/-- Lists of values that are alike make lists of forced thunks that are. -/
theorem forall₂_forced {w : R.World} {vs vs' : List Value} (h : List.Forall₂ (R.value w) vs vs') :
    List.Forall₂ (R.thunk w) (vs.map .forced) (vs'.map .forced) := by
  induction h with
  | nil => exact .nil
  | cons hv _ ih => exact .cons (.forced hv) ih

/-- What is like itself throughout is so in lists. -/
theorem forall₂_map_self {α : Type} {w : R.World} {f : α → Value}
    (h : ∀ a, R.value w (f a) (f a)) (as : List α) :
    List.Forall₂ (R.value w) (as.map f) (as.map f) := by
  induction as with
  | nil => exact .nil
  | cons a _ ih => exact .cons (h a) ih

end Relations

/-! ### Walks -/

/-- A walk that has a level less to go, if there is one. -/
def Eval.below {α : Type} (x : Nat → Eval α) : (depth : Nat) → Eval α
  | 0 => throw .outOfReach
  | depth + 1 => x depth

/-- The values that a walk goes down into. -/
inductive Value.Nests : Value → Prop
  | list (i : ListId) (ts : List Thunk) : Value.Nests (.list i ts)
  | data (i : InstanceId) : Value.Nests (.data i)

/-! ### Judgements -/

/-- A relation between families of steps, with the rules that the evaluator goes by. -/
structure Judgement (p p' : Program) extends Relations p p' where
  Index : Type
  Stance : Type
  /-- In a world and from a stance, two families of steps are judged, with a relation between
  their results in the world that is there in the end. -/
  Agree : World → Stance → {α β : Type} → (World → α → β → Prop) → (Index → Eval α) →
    (Index → Eval β) → Prop
  -- stances
  /-- Faults may be raised. -/
  works : Stance → Prop
  /-- The current scopes stand for each other. -/
  current : Stance → Prop
  /-- Suspended nodes may be resumed. -/
  fit : Stance → Prop
  /-- The stance in other scopes. -/
  within : Stance → ScopeId → ScopeId → Stance
  /-- Calls may be entered from this place. -/
  enters : Stance → Span → Prop
  /-- The stance inside of a call. -/
  entered : Stance → Frame → Frame → Stance → Prop
  fit_entered : ∀ {k f f' k'}, entered k f f' k' → fit k'
  -- sequences
  pure : ∀ {w k} {α β : Type} {A : World → α → β → Prop} {a b}, A w a b →
    Agree w k A (fun _ => Pure.pure a) fun _ => Pure.pure b
  bind : ∀ {w k} {α β γ δ : Type} {A : World → α → β → Prop} {B : World → γ → δ → Prop} {x y}
    {f : Index → α → Eval γ} {g : Index → β → Eval δ}, Agree w k A x y →
    (∀ {u} a b, le w u → A u a b → Agree u k B (fun i => f i a) fun i => g i b) →
    Agree w k B (fun i => x i >>= f i) fun i => y i >>= g i
  -- ways to stop
  /-- References into the programs may lead nowhere. -/
  dangles : Prop
  /-- Nodes of this kind occur. -/
  has : Kind → Prop
  raise : ∀ {w k} {α β : Type} {A : World → α → β → Prop} {cause : Cause}, works k → cause.Apt →
    Agree w k A (fun _ => Eval.raise cause) fun _ => Eval.raise cause
  ill_formed : ∀ {w k} {α β : Type} {A : World → α → β → Prop} {f args} (text : String), works k →
    has (.intrinsic f args) → args.length ≠ 1 →
    Agree w k A (fun _ => Eval.raise (.illFormed text)) fun _ => Eval.raise (.illFormed text)
  dangle : ∀ {w k} {α β : Type} {A : World → α → β → Prop}, dangles →
    Agree w k A (fun _ => throw .dangling) fun _ => throw .dangling
  capacity : ∀ {w k} {α β : Type} {A : World → α → β → Prop},
    Agree w k A (fun _ => throw .overCapacity) fun _ => throw .overCapacity
  -- bindings
  lookup : ∀ {w k n n'}, current k → name n n' →
    Agree w k (fun w => Option.Rel (toRelations.binding w)) (fun _ => Eval.lookup? n)
      fun _ => Eval.lookup? n'
  assign : ∀ {w k n n' b b'}, current k → name n n' → toRelations.binding w b b' →
    Agree w k (fun _ => Eq) (fun _ => Eval.assign n b) fun _ => Eval.assign n' b'
  define : ∀ {w k s s' n n' v v'}, own w s s' → name n n' → value w v v' →
    Agree w k (fun _ _ _ => True) (fun _ => Eval.define s n ⟨v, .mutable⟩)
      fun _ => Eval.define s' n' ⟨v', .mutable⟩
  isBound : ∀ {w k s s' n n'}, own w s s' → name n n' →
    Agree w k (fun _ => Eq) (fun _ => Eval.isBound s n) fun _ => Eval.isBound s' n'
  copyScope : ∀ {w k}, current k →
    Agree w k own (fun _ => Eval.copyScope) fun _ => Eval.copyScope
  get : ∀ {w k}, current k →
    Agree w k (fun w m m' => scope w m.scope m'.scope) (fun _ => MonadState.get)
      fun _ => MonadState.get
  -- lists, instances, types and output
  newList : ∀ {w k ts ts'}, List.Forall₂ (toRelations.thunk w) ts ts' →
    Agree w k value (fun _ => Eval.newList ts) fun _ => Eval.newList ts'
  instanceAt : ∀ {w k i i'}, data w i i' →
    Agree w k toRelations.record (fun _ => Eval.instanceAt i) fun _ => Eval.instanceAt i'
  setField : ∀ {w k i i' n n' v v'}, data w i i' → name n n' → value w v v' →
    Agree w k (fun _ _ _ => True) (fun _ => Eval.setField i n (.forced v))
      fun _ => Eval.setField i' n' (.forced v')
  declare : ∀ {w k t t' vs vs'} {c c' : Index → Context}, (∀ i, (c i).program = p) →
    (∀ i, (c' i).program = p') → works k → toVocabulary.OnDataType ⟨t, vs⟩ ⟨t', vs'⟩ →
    Agree w k value (fun i => (c i).declare t vs) fun i => (c' i).declare t' vs'
  construct : ∀ {w k t t' v v' fs fs'} {c c' : Index → Context}, (∀ i, (c i).program = p) →
    (∀ i, (c' i).program = p') → works k → current k → has (.construct t v fs) → name t t' →
    name v v' → List.Forall₂ toVocabulary.OnInit fs fs' →
    Agree w k value (fun i => (c i).construct t v fs) fun i => (c' i).construct t' v' fs'
  write : ∀ {w k} (text : String),
    Agree w k (fun _ _ _ => True) (fun _ => Eval.write text) fun _ => Eval.write text
  writeLine : ∀ {w k} (text : String),
    Agree w k (fun _ _ _ => True) (fun _ => Eval.writeLine text) fun _ => Eval.writeLine text
  -- scope and calls
  inScope : ∀ {w k s s'} {α β : Type} {A : World → α → β → Prop} {x y}, scope w s s' →
    Agree w (within k s s') A x y →
    Agree w k A (fun i => Eval.inScope s (x i)) fun i => Eval.inScope s' (y i)
  inFrame : ∀ {w k n n' span} {α β : Type} {A : World → α → β → Prop} {x y}, enters k span →
    name n n' →
    (∀ k', entered k ⟨n, some span⟩ ⟨n', some span⟩ k' → Agree w k' A x y) →
    Agree w k A (fun i => Eval.inFrame p.names ⟨n, some span⟩ (x i))
      fun i => Eval.inFrame p'.names ⟨n', some span⟩ (y i)
  -- walks
  /-- How many levels down values are looked at. -/
  Reach : (Index → Nat) → (Index → Nat) → Prop
  /-- A depth that is left for values of a rank. -/
  Depth : Nat → (Index → Nat) → (Index → Nat) → Prop
  /-- Values that a walk of some depth goes through. -/
  rank : Nat → World → Value → Value → Prop
  rank_value : ∀ {n w v v'}, rank n w v v' → value w v v'
  rank_mono : ∀ {n w w' v v'}, le w w' → rank n w v v' → rank n w' v v'
  rank_pair : ∀ {d d' w a a' b b'}, Reach d d' → value w a a' → value w b b' →
    ∃ n, Depth n d d' ∧ rank n w a a' ∧ rank n w b b'
  rank_list : ∀ {n w i j xs ys}, rank (n + 1) w (.list i xs) (.list j ys) →
    List.Forall₂ (toRelations.Holding (rank n) w) xs ys
  /-- What is suspended can have any rank, and so can what is in an instance. -/
  rank_suspended : ∀ {m m' n w v v'}, suspended m m' → value w v v' → rank n w v v'
  rank_data : ∀ {i i' n w w' v v'}, data w i i' → value w' v v' → rank n w' v v'
  below : ∀ {n d d' w k v v'} {α β : Type} {A : World → α → β → Prop}
    {x : Index → Nat → Eval α} {y : Index → Nat → Eval β}, Depth n d d' → rank n w v v' → v.Nests →
    (∀ {m e f}, n = m + 1 → Depth m e f →
      Agree w k A (fun i => x i (e i)) fun i => y i (f i)) →
    Agree w k A (fun i => Eval.below (x i) (d i)) fun i => Eval.below (y i) (d' i)

namespace Judgement

open Relations

variable {p p' : Program} {J : Judgement p p'} {w : J.World} {k : J.Stance}
variable {α β γ δ : Type} {A : J.World → α → β → Prop} {B : J.World → γ → δ → Prop}

/-! ### Derived rules -/

theorem Agree.pure {a : α} {b : β} (h : A w a b) :
    J.Agree w k A (fun _ => Pure.pure a) fun _ => Pure.pure b :=
  J.pure h

theorem Agree.bind {x : J.Index → Eval α} {y : J.Index → Eval β} {f : J.Index → α → Eval γ}
    {g : J.Index → β → Eval δ} (hx : J.Agree w k A x y)
    (hf : ∀ {u} a b, J.le w u → A u a b → J.Agree u k B (fun i => f i a) fun i => g i b) :
    J.Agree w k B (fun i => x i >>= f i) fun i => y i >>= g i :=
  J.bind hx hf

theorem Agree.imp {A' : J.World → α → β → Prop} {x : J.Index → Eval α} {y : J.Index → Eval β}
    (h : J.Agree w k A x y) (hA : ∀ {w a b}, A w a b → A' w a b) : J.Agree w k A' x y := by
  have h' := h.bind (f := fun _ => Pure.pure) (g := fun _ => Pure.pure)
    fun a b _ hab => .pure (hA hab)
  simpa only [bind_pure] using h'

theorem Agree.ite {P P' : Prop} [Decidable P] [Decidable P'] {x x' : J.Index → Eval α}
    {y y' : J.Index → Eval β} (h : P ↔ P') (hx : J.Agree w k A x y) (hx' : J.Agree w k A x' y') :
    J.Agree w k A (fun i => if P then x i else x' i) fun i => if P' then y i else y' i := by
  by_cases hp : P
  · simp only [if_pos hp, if_pos (h.1 hp)]
    exact hx
  · simp only [if_neg hp, if_neg (mt h.2 hp)]
    exact hx'

theorem Agree.discard {x : J.Index → Eval α} {y : J.Index → Eval β} (hx : J.Agree w k A x y) :
    J.Agree w k (fun _ _ _ => True) (fun i => discard (x i)) fun i => discard (y i) :=
  hx.bind fun _ _ _ _ => .pure trivial

/-- The elements are gone through in worlds that become more, so what is known of the rest
has to be stable. -/
theorem Agree.mapM {f : J.Index → α → Eval γ} {g : J.Index → β → Eval δ} {xs : List α}
    {ys : List β} (hA : J.Stable A) (hB : J.Stable B) (h : List.Forall₂ (A w) xs ys)
    (hf : ∀ ⦃w a b⦄, A w a b → J.Agree w k B (fun i => f i a) fun i => g i b) :
    J.Agree w k (fun w => List.Forall₂ (B w)) (fun i => xs.mapM (f i)) fun i => ys.mapM (g i) := by
  induction xs generalizing w ys with
  | nil =>
    cases h
    exact .pure .nil
  | cons a xs ih =>
    cases h with
    | cons hab hs =>
      simp only [List.mapM_cons]
      refine (hf hab).bind fun c d hle hcd => ?_
      refine (ih (hA.forall₂ hle hs)).bind fun cs ds hle' hcds => ?_
      exact .pure (.cons (hB hle' hcd) hcds)

/-! ### Ways to stop -/

theorem agree_check {x : Except Cause α} {y : Except Cause β} (hk : J.works k) (hx : Apt x)
    (h : OnExcept (A w) x y) : J.Agree w k A (fun _ => Eval.check x) fun _ => Eval.check y := by
  cases h with
  | ok hab => exact .pure hab
  | error cause => exact J.raise hk (hx cause rfl)

theorem agree_present {x : Option α} {y : Option β} (h : Present J.dangles (A w) x y) :
    J.Agree w k A (fun _ => Eval.present x) fun _ => Eval.present y := by
  cases h with
  | some hab => exact .pure hab
  | none hd => exact J.dangle hd

theorem agree_reserve (n : Nat) :
    J.Agree w k (fun _ _ _ => True) (fun _ => Eval.reserve n) fun _ => Eval.reserve n :=
  .ite Iff.rfl (.pure trivial) J.capacity

/-! ### Lists -/

theorem agree_newForced {vs vs' : List Value} (h : List.Forall₂ (J.value w) vs vs') :
    J.Agree w k J.value (fun _ => Eval.newForced vs) fun _ => Eval.newForced vs' :=
  J.newList (forall₂_forced h)

theorem stable_rank (n : Nat) : J.Stable (J.rank n) := fun _ _ h _ _ => J.rank_mono h

end Judgement

end LazyExpr
