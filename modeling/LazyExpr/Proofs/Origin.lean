/-
LazyExpr/Proofs/Origin.lean

Where the faults of a node come from.

A node raises few causes on its own, and what they say is true (`Cause.Arises`): the
kinds of a mismatch are two, the index is not in the list, the numbers of arguments
differ, the fields named are those that are missing and those that are too many.  That
the program is ill formed is said only of a primitive function without its one argument.
What else fails is a question that the node asked, or a call that was one too many: that
a node takes a course in the sense of `Course` is a judgement of the evaluator
(`Goes.judgement`).  Walks through values raise nothing on their own and enter no calls.
-/
import LazyExpr.Proofs.Course
import LazyExpr.Proofs.Diagonal

namespace LazyExpr

/-! ### Causes -/

/-- A primitive function is given its one argument. -/
def Kind.isUnary : Kind → Bool
  | .intrinsic _ args => args.length == 1
  | _ => true

/-- All primitive functions are given their one argument. -/
def Program.UnaryIntrinsics (p : Program) : Prop := ∀ a ∈ p.nodes, a.kind.isUnary = true

instance (p : Program) : Decidable p.UnaryIntrinsics :=
  inferInstanceAs (Decidable (∀ a ∈ p.nodes, a.kind.isUnary = true))

/-- The names that a constructor of the program lacks and those that it has too many, for
a variant of a declared type.  They are not both empty. -/
def Types.Mismatch (p : Program) (τ : Types) (missing unexpected : List Name) : Prop :=
  (missing ≠ [] ∨ unexpected ≠ []) ∧
    ∃ a ∈ p.nodes, ∃ type variant fields v, a.kind = .construct type variant fields ∧
      τ.variant p.names type variant = .ok v ∧
      missing = v.missing (fields.map (·.1)) ∧ unexpected = v.unexpected (fields.map (·.1))

/-- What is true when a node raises a cause on its own, with the declared types `τ`.  The
refusal of a call is not its own doing. -/
def Cause.Arises (p : Program) (τ : Types) : Cause → Prop
  | illFormed _ => ¬ p.UnaryIntrinsics
  | typeMismatch expected got => expected ≠ got
  | indexOutOfBounds index length => index < 0 ∨ length ≤ index
  | constructorMismatch _ _ missing unexpected => ∃ ms us, τ.Mismatch p ms us ∧
      missing = ms.map p.names.text ∧ unexpected = us.map p.names.text
  | arityMismatch _ expected got => expected ≠ got
  | recursionLimit _ => False
  | other _ => False
  | _ => True

section

variable {p : Program} {τ : Types} {cause : Cause}

theorem Cause.Apt.arises (h : cause.Apt) : cause.Arises p τ := by
  cases cause with
  | illFormed _ => exact h.elim
  | constructorMismatch _ _ _ _ => exact h.elim
  | _ => exact h

theorem arises_of_declare {names : Names} {t : DataType} (h : τ.declare names t = .error cause) :
    cause.Arises p τ := by
  unfold Types.declare at h
  split at h
  · cases h
    trivial
  · split at h
    · cases h
    · split at h
      · cases h
      · cases h
        trivial

theorem arises_of_variant {names : Names} {type variant : Name}
    (h : τ.variant names type variant = .error cause) : cause.Arises p τ := by
  unfold Types.variant at h
  split at h
  · cases h
    trivial
  · split at h
    · cases h
      trivial
    · cases h

theorem arises_of_checkFields {a : Node} (ha : a ∈ p.nodes) {type variant : Name}
    {fields : List (Name × NodeId)} (hkind : a.kind = .construct type variant fields) {v : Variant}
    (hv : τ.variant p.names type variant = .ok v)
    (h : v.checkFields p.names type (fields.map (·.1)) = .error cause) : cause.Arises p τ := by
  unfold Variant.checkFields at h
  dsimp only at h
  split at h
  · cases h
  · next hempty =>
    cases h
    refine ⟨_, _, ⟨?_, a, ha, type, variant, fields, v, hkind, hv, rfl, rfl⟩, rfl, rfl⟩
    simpa [or_iff_not_imp_left] using hempty

end

/-- The call of a frame is the one that a node stands for. -/
def Node.Calls (a : Node) (f : Frame) : Prop :=
  (∃ callee args, a.kind = .call callee args) ∧ f.span = some a.span

/-! ### The judgement -/

/-- Everything there is. -/
def Diagonal.all (p : Program) : Diagonal p where
  refs _ := True
  World := Unit
  le _ _ := True
  value _ _ := True
  scope _ _ := True
  data _ _ := True
  refs_name _ := trivial
  le_trans _ _ := trivial
  value_mono _ _ := trivial
  scope_mono _ _ := trivial
  data_mono _ _ := trivial
  value_number _ := trivial
  value_bool _ := trivial
  value_char _ := trivial
  value_void := trivial
  value_function _ := trivial
  refs_function _ _ _ := trivial
  data_of_value _ := trivial
  forced _ _ := trivial
  deferred _ _ := ⟨trivial, trivial⟩

theorem Diagonal.onThunk_all {p : Program} (V : Value → Prop) (hV : ∀ v, V v) (t : Thunk) :
    (Diagonal.all p).OnThunk (fun _ => V) () t := by
  cases t with
  | forced v => exact .forced (hV v)
  | deferred n s => exact .deferred trivial trivial

/-- The causes that a step may raise on its own and the calls that it may enter. -/
structure Course.Stance where
  own : Types → Cause → Prop
  enters : Frame → Prop

/-- Nothing may be raised, and no call may be entered. -/
def Course.Stance.inside : Course.Stance := ⟨fun _ _ => False, fun _ => False⟩

variable {c : Context} {own : Types → Cause → Prop} {enters : Frame → Prop}

namespace Goes

theorem declare (h : ∀ {τ cause}, cause.Arises c.program τ → own τ cause)
    {c' : Revision c → Context} (hc : ∀ i, (c' i).program = c.program) (type : Name)
    (variants : List Variant) : Goes c own enters fun i => (c' i).declare type variants := by
  intro m
  simp only [Context.declare_apply, hc]
  cases hd : m.types.declare c.program.names ⟨type, variants⟩ with
  | error cause => exact .raised cause m (h (arises_of_declare hd)) fun _ => rfl
  | ok types => exact .value .void { m with types } rfl fun _ => rfl

theorem construct (h : ∀ {τ cause}, cause.Arises c.program τ → own τ cause)
    {c' : Revision c → Context} (hc : ∀ i, (c' i).program = c.program) {a : Node}
    (ha : a ∈ c.program.nodes) {type variant : Name} {fields : List (Name × NodeId)}
    (hkind : a.kind = .construct type variant fields) :
    Goes c own enters fun i => (c' i).construct type variant fields := by
  intro m
  simp only [Context.construct_apply, hc]
  cases hv : m.types.variant c.program.names type variant with
  | error cause => exact .raised cause m (h (arises_of_variant hv)) fun _ => rfl
  | ok v =>
    dsimp only
    cases hf : v.checkFields c.program.names type (fields.map (·.1)) with
    | error cause => exact .raised cause m (h (arises_of_checkFields ha hkind hv hf)) fun _ => rfl
    | ok _ =>
      refine .value _ _ ?_ fun _ => rfl
      rfl

theorem assign (n : Name) (b : Binding) : Goes c own enters fun _ => Eval.assign n b := by
  refine const fun m => ?_
  rw [Eval.assign_apply]
  split
  · exact ⟨_, _, rfl, rfl⟩
  · exact ⟨_, _, rfl, rfl⟩

/-- A step that asks nothing and ends in a value, which may be any. -/
theorem yields_const {α : Type} {P : α → Prop} {x : Eval α}
    (h : ∀ m, ∃ a m', x m = .ok a m' ∧ m'.calls = m.calls) (hP : ∀ a, P a) :
    Goes c own enters (fun _ => x) ∧ ∀ _ : Revision c, x.Yields P :=
  ⟨const h, fun _ => .of_forall hP x⟩

/-- The indices are the revisions of a context.  The second family is not looked at, and of
the values of the first one it is only said that they stand for something. -/
def judgement (c : Context) : Judgement c.program c.program where
  toRelations := (Diagonal.all c.program).relations
  Index := Revision c
  Stance := Course.Stance
  Agree _ k _ _ A x _ := Goes c k.own k.enters x ∧ ∀ i, (x i).Yields fun a => ∃ b, A () a b
  works k := ∀ {τ cause}, cause.Arises c.program τ → k.own τ cause
  current _ := True
  fit _ := True
  within k _ _ := k
  enters k span := ∀ n, k.enters ⟨n, some span⟩
  entered _ _ _ k' := k' = .inside
  fit_entered _ := trivial
  pure h := ⟨.pure _, fun _ => .pure ⟨_, h⟩⟩
  bind hx hf := by
    refine ⟨.bind hx.1 hx.2 ?_, fun i => (hx.2 i).bind ?_⟩
    · rintro a ⟨b, hab⟩
      exact (hf (u := ()) a b trivial hab).1
    · rintro a ⟨b, hab⟩
      exact (hf (u := ()) a b trivial hab).2 i
  dangles := True
  has k := ∃ a ∈ c.program.nodes, a.kind = k
  raise hk h := ⟨.raise fun _ => hk h.arises, fun _ => .throw _⟩
  ill_formed := by
    rintro w k α β A f args text hk ⟨a, ha, hkind⟩ hne
    refine ⟨.raise fun τ => hk fun hp => hne ?_, fun _ => .throw _⟩
    have hunary : a.kind.isUnary = true := hp a ha
    rw [hkind] at hunary
    exact beq_iff_eq.1 hunary
  dangle _ := ⟨.halt (by rintro _ ⟨⟩), fun _ => .throw _⟩
  capacity := ⟨.halt (by rintro _ ⟨⟩), fun _ => .throw _⟩
  lookup _ _ := yields_const (fun m => ⟨_, m, rfl, rfl⟩)
    fun _ => ⟨_, Diagonal.bound_self fun _ _ => trivial⟩
  assign _ _ _ := ⟨.assign _ _, fun _ => .of_forall (fun _ => ⟨_, rfl⟩) _⟩
  define _ _ _ := yields_const (fun _ => ⟨_, _, rfl, rfl⟩) fun _ => ⟨(), trivial⟩
  isBound _ _ := yields_const (fun m => ⟨_, m, rfl, rfl⟩) fun _ => ⟨_, rfl⟩
  copyScope _ := yields_const (fun _ => ⟨_, _, rfl, rfl⟩) fun _ => ⟨_, rfl, trivial⟩
  get _ := yields_const (fun m => ⟨_, m, rfl, rfl⟩) fun m => ⟨m, rfl, trivial⟩
  newList _ := yields_const (fun _ => ⟨_, _, rfl, rfl⟩) fun _ => ⟨_, rfl, trivial⟩
  instanceAt _ := yields_const (fun m => ⟨_, m, rfl, rfl⟩) fun d =>
    ⟨d, Diagonal.record_self fun f _ => Diagonal.onThunk_all _ (fun _ => trivial) f.2⟩
  setField _ _ _ := yields_const (fun _ => ⟨_, _, rfl, rfl⟩) fun _ => ⟨(), trivial⟩
  declare hc _ hk _ := ⟨.declare hk hc _ _, fun _ => .of_forall (fun _ => ⟨_, rfl, trivial⟩) _⟩
  construct := by
    rintro w k t t' v v' fs fs' c' _ hc - hk - ⟨a, ha, hkind⟩ - - -
    exact ⟨.construct hk hc ha hkind, fun _ => .of_forall (fun _ => ⟨_, rfl, trivial⟩) _⟩
  write _ := yields_const (fun _ => ⟨_, _, rfl, rfl⟩) fun _ => ⟨(), trivial⟩
  writeLine _ := yields_const (fun _ => ⟨_, _, rfl, rfl⟩) fun _ => ⟨(), trivial⟩
  inScope _ h := ⟨.inScope _ h.1, fun i => (h.2 i).inScope _⟩
  inFrame henters _ h :=
    ⟨.inFrame (henters _) (h _ rfl).1, fun i => ((h _ rfl).2 i).inFrame _ _⟩
  Reach d _ := ∃ n, d = fun _ => n
  Depth n d _ := d = fun _ => n
  rank _ _ v v' := v = v' ∧ True
  rank_value h := h
  rank_mono _ h := h
  rank_pair := by
    rintro d _ _ a a' b b' ⟨n, hn⟩ ha hb
    exact ⟨n, hn, ha, hb⟩
  rank_list := by
    rintro n w i j xs ys ⟨h, -⟩
    cases h
    refine List.forall₂_same.2 fun t _ => ?_
    exact Diagonal.onContent_iff.2 ⟨rfl, Diagonal.onThunk_all _ (fun _ => trivial) t⟩
  rank_suspended _ h := h
  rank_data _ h := h
  below := by
    rintro n d d' w k v v' α β A x y rfl - - h
    cases n with
    | zero => exact ⟨.halt (by rintro _ ⟨⟩), fun _ => .throw _⟩
    | succ n => exact h (m := n) (e := fun _ => n) (f := d') rfl rfl

/-! ### Walks, bodies and nodes -/

theorem reaches (c : Context) (depth : Nat) :
    (judgement c).Reach (fun _ => depth) fun _ => depth :=
  ⟨depth, rfl⟩

/-- The contexts of all revisions. -/
theorem resumes (hc : c.Balanced) :
    (judgement c).Resumes (fun i => i.context) fun i => i.context where
  left i := i.program_eq
  right i := i.program_eq
  reach := ⟨c.reach, funext fun i => i.reach_eq⟩
  resume _ _ _ := ⟨.resume hc _, fun _ => .of_forall (fun v => ⟨v, rfl, trivial⟩) _⟩

theorem force (hc : c.Balanced) (t : Thunk) : Goes c own enters fun i => i.context.force t := by
  have ht := Diagonal.thunk_iff.2
    ⟨rfl, Diagonal.onThunk_all (p := c.program) _ (fun _ => trivial) t⟩
  exact ((resumes hc).force (k := Course.Stance.mk own enters) trivial ht).1

theorem equal (hc : c.Balanced) (depth : Nat) (v w : Value) :
    Goes c own enters fun i => v.equal i.context.force depth w :=
  (Judgement.equal_agree (w := ()) (k := Course.Stance.mk own enters) (reaches c depth)
    ((resumes hc).forces trivial) ⟨rfl, trivial⟩ ⟨rfl, trivial⟩).1

theorem text (hc : c.Balanced) (v : Value) : Goes c own enters fun i => i.context.display v :=
  ((resumes hc).display (w := ()) (k := Course.Stance.mk own enters) trivial ⟨rfl, trivial⟩).1

theorem escape (hc : c.Balanced) (depth : Nat) (v : Value) :
    Goes c own enters fun i => i.context.escape depth v :=
  ((resumes hc).escape (w := ()) (k := Course.Stance.mk own enters) trivial (reaches c depth)
    ⟨rfl, trivial⟩).1

/-- The body of a function raises nothing that it did not ask for. -/
theorem body (hc : c.Balanced) (f : Function) (s : ScopeId) :
    Goes c own enters fun i => i.context.body f s :=
  ((resumes hc).body_of_eval (w := ()) (k := Course.Stance.mk own enters) (g := f) trivial
    ⟨rfl, trivial⟩ ⟨.eval hc f.body, fun _ => .of_forall (fun v => ⟨v, rfl, trivial⟩) _⟩).1

/-- A node of any kind takes a course, on which it enters no other call than its own. -/
theorem evalKind (hc : c.Balanced) {a : Node} (ha : a ∈ c.program.nodes) :
    Goes c (Cause.Arises c.program) a.Calls fun i => i.context.evalKind a.span a.kind := by
  have hkind : ∀ (child : NodeId → NodeId → Prop) (k : Kind), (∀ n, child n n) →
      (judgement c).OnKind child k k := fun _ _ hchild =>
    Diagonal.onKind_self (D := .all c.program) (fun n _ => hchild n) fun _ _ => trivial
  have hvalue : ∀ (x : Eval Value), x.Yields fun v => ∃ v', v = v' ∧ True :=
    .of_forall fun v => ⟨v, rfl, trivial⟩
  have hcontexts : (judgement c).Contexts (Course.Stance.mk (Cause.Arises c.program) a.Calls)
      (· = ·) (fun i => i.context) fun i => i.context :=
    { resumes hc with
      works := fun h => h
      current := trivial
      fit := trivial
      node := by
        rintro n _ rfl
        exact .self trivial (fun b => ⟨hkind _ b.kind fun _ => ⟨rfl, trivial⟩, rfl⟩) _
      number := by
        rintro n _ ⟨rfl, -⟩
        exact .self trivial (fun _ => rfl) _
      eval := by
        rintro _ n _ rfl
        exact ⟨.eval hc n, fun _ => hvalue _⟩
      body := by
        rintro _ n _ s s' f f' k' ⟨rfl, -⟩ - -
        exact ⟨.eval hc n, fun _ => hvalue _⟩ }
  -- only a node that is a call enters one, with its own place in the frame
  have hcalls : ∀ n args, a.kind = .call n args →
      ∀ name, a.Calls ⟨name, some a.span⟩ := fun n args h _ => ⟨⟨n, args, h⟩, rfl⟩
  exact (hcontexts.evalKind (w := ()) ⟨a, ha, rfl⟩ hcalls (hkind _ _ fun _ => rfl)).1

end Goes

end LazyExpr
