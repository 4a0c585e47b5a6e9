/-
LazyExpr/Proofs/Integrity.lean

References lead to what they should.

Whatever a host asks for: nodes stand after all nodes that they mention, the lists of
all nodes lie in the tables of the arena, and everything that is held anywhere, by
tables of bindings, functions, suspended elements, instances, declarations, active
calls and the host itself, refers to names that were issued and nodes that are there.
It is the numbering of a program next to itself: what is like itself, up to a
renaming that knows only what the program has, refers to nothing else.

What happens in the middle of a run is said with supervisors and with larger programs
(`Session.Safe`).  Wherever a reference that was never issued might lead, and whatever
would be done where one is met, no run, text, comparison or operator depends on it.
-/
import LazyExpr.Arena
import LazyExpr.Proofs.Numbering
import LazyExpr.Proofs.Place
import LazyExpr.Proofs.Supervision

namespace LazyExpr

/-! ### Reading with checks -/

namespace Slice

variable {α : Type} {s : Slice} {t : Array α}

/-- The entries of a slice, if the table has all of them. -/
def read? (s : Slice) (t : Array α) : Option (List α) := if s.Fits t then some (s.read t) else none

theorem read?_of_fits (h : s.Fits t) : s.read? t = some (s.read t) := if_pos h

end Slice

namespace Tables

variable {t : Tables}

def readVariant? (t : Tables) (v : FlatVariant) : Option Variant :=
  (v.fields.read? t.names).map (Variant.mk v.name)

def readVariants? (t : Tables) (s : Slice) : Option (List Variant) :=
  (s.read? t.variants).bind (·.mapM t.readVariant?)

/-- A kind of node with its lists, if the tables have them. -/
def read? (t : Tables) : FlatKind → Option Kind
  | .seq statements result => (statements.read? t.nodes).map (.seq · result)
  | .lambda name params body => (params.read? t.names).map (.lambda name · body)
  | .call callee args => (args.read? t.nodes).map (.call callee)
  | .list items => (items.read? t.nodes).map .list
  | .declare type variants => (t.readVariants? variants).map (.declare type)
  | .construct type variant fields => (fields.read? t.fields).map (.construct type variant)
  | .intrinsic function args => (args.read? t.nodes).map (.intrinsic function)
  | k => some (t.read k)

theorem readVariants?_of_fits {s : Slice} (h : s.Fits t.variants) :
    t.readVariants? s = some (t.readVariants s) := by
  have hmem : ∀ w ∈ s.read t.variants, t.readVariant? w = some (t.readVariant w) := by
    intro w hw
    have hin : w ∈ t.variants :=
      Array.mem_toList_iff.1 (List.mem_of_mem_drop (List.mem_of_mem_take hw))
    rw [readVariant?, Slice.read?_of_fits (t.fits w hin)]
    rfl
  rw [readVariants?, Slice.read?_of_fits h, readVariants, Option.bind_some]
  generalize s.read t.variants = ws at hmem
  induction ws with
  | nil => rfl
  | cons w ws ih =>
    rw [List.mapM_cons, hmem w List.mem_cons_self, ih fun v hv => hmem v (List.mem_cons_of_mem w hv)]
    rfl

theorem read?_of_fits {k : FlatKind} (h : t.Fits k) : t.read? k = some (t.read k) := by
  cases k with
  | seq statements result => rw [read?, Slice.read?_of_fits h]; rfl
  | lambda name params body => rw [read?, Slice.read?_of_fits h]; rfl
  | call callee args => rw [read?, Slice.read?_of_fits h]; rfl
  | list items => rw [read?, Slice.read?_of_fits h]; rfl
  | declare type variants => rw [read?, readVariants?_of_fits h]; rfl
  | construct type variant fields => rw [read?, Slice.read?_of_fits h]; rfl
  | intrinsic function args => rw [read?, Slice.read?_of_fits h]; rfl
  | _ => rfl

end Tables

namespace Arena

/-- A node with its lists, if it is there and the tables have them. -/
def node? (a : Arena) (id : NodeId) : Option Node :=
  a.nodes[id.index]?.bind fun n => (a.tables.read? n.kind).map (Node.mk · n.span)

/-- Nothing is read from outside of a table. -/
theorem node?_eq (a : Arena) (id : NodeId) : a.node? id = a.program.node? id := by
  show _ = (a.nodes.map a.readNode)[id.index]?
  rw [Array.getElem?_map, node?]
  rcases h : a.nodes[id.index]? with - | n
  · rfl
  · have hfits := a.fits n (Array.mem_of_getElem? h)
    rw [Option.bind_some, Tables.read?_of_fits hfits]
    rfl

end Arena

/-! ### What requests lay out -/

section

variable {σ : Type} [Storage σ]

/-- What a step of building leaves behind, whether it succeeds or not. -/
def Build.after {α : Type} (x : Build σ α) (a : σ) : σ :=
  match x a with
  | .ok _ b => b
  | .error _ b => b

/-- What a request adds to a storage. -/
def Request.layOut (a : σ) : Request → σ
  | .add es => (Expr.buildAll es).after a
  | _ => a

/-- The prelude, and then what is added by requests one after another. -/
def Request.layOutAll (a : σ) (requests : List Request) : σ :=
  requests.foldl Request.layOut (Prelude.functions.after a)

end

/-- The program of a host is what its requests lay out. -/
theorem Host.program_answer (h : Host) (r : Request) :
    (h.answer r).2.session.program = r.layOut h.session.program := by
  have htake : ∀ x : Outcome Value × Session, (h.take x).2.session = x.2 := by
    intro x
    unfold Host.take
    split
    · rfl
    · rfl
  cases r with
  | add es =>
    simp only [Host.answer, Request.layOut, Build.after, Session.addAll]
    rcases Expr.buildAll es h.session.program with ⟨ids, q⟩ | ⟨e, q⟩
    · rfl
    · rfl
  | run reach sink roots =>
    simp only [Host.answer]
    split
    · rw [htake]
      exact Session.program_perform ..
    · rfl
  | display reach i =>
    simp only [Host.answer]
    split
    · exact Session.program_perform ..
    · rfl
  | equal reach i j =>
    simp only [Host.answer]
    split
    · exact Session.program_perform ..
    · rfl
  | apply reach op i j =>
    simp only [Host.answer]
    split
    · rw [htake]
      exact Session.program_perform ..
    · rfl

theorem Host.program_answerAll (h : Host) (rs : List Request) :
    (h.answerAll rs).2.session.program = rs.foldl Request.layOut h.session.program := by
  induction rs generalizing h with
  | nil => rfl
  | cons r rs ih =>
    rw [List.foldl_cons, ← h.program_answer r]
    exact ih (h.answer r).2

theorem Session.program_withPrelude (limit : Nat) :
    (withPrelude limit).program = Prelude.functions.after Program.empty := by
  unfold withPrelude Prelude.install Build.after
  rcases Prelude.functions Program.empty with ⟨fs, q⟩ | ⟨e, q⟩
  · rfl
  · rfl

/-- A storage next to the program that it stands for. -/
def Storage.standing {σ : Type} [Storage σ] : Correspondence σ Program where
  rel L a p := L = .within (fun _ => True) ∧ Storage.program a = p
  add_name := by
    rintro L a _ t ⟨rfl, rfl⟩
    exact ⟨_, .refl _, ⟨rfl, addName_snd a t⟩, addName_fst a t, trivial⟩
  add_number := by
    rintro L a _ d ⟨rfl, rfl⟩
    exact ⟨_, .refl _, ⟨rfl, addNumber_snd a d⟩, addNumber_fst a d, trivial⟩
  add_node := by
    rintro L a _ k k' span ⟨rfl, rfl⟩ hk
    obtain ⟨rfl, -⟩ := Likeness.within_of_onKind hk
    have hid := addNode_fst a ⟨k, span⟩
    exact ⟨_, .refl _, ⟨rfl, addNode_snd a ⟨k, span⟩⟩, ⟨hid, trivial⟩, ⟨hid, trivial⟩⟩

/-- Storages that correspond do so after what is built in both. -/
theorem Correspondence.Agree.after {σ σ' α β : Type} [Storage σ] [Storage σ']
    {C : Correspondence σ σ'} {L : Likeness} {a : σ} {a' : σ'} {A : Likeness → α → β → Prop}
    {x : Build σ α} {y : Build σ' β} (h : C.Agree L a a' A x y) :
    ∃ M, C.rel M (x.after a) (y.after a') := by
  unfold Correspondence.Agree at h
  unfold Build.after
  generalize x a = r, y a' = r' at h
  cases h with
  | ok _ hM _ => exact ⟨_, hM⟩
  | error _ _ hM => exact ⟨_, hM⟩

/-- Requests lay out the same in any storage. -/
theorem Request.program_layOutAll {σ : Type} [Storage σ] (a : σ) (rs : List Request) :
    Storage.program (Request.layOutAll a rs) = Request.layOutAll (Storage.program a) rs := by
  have go : ∀ {L : Likeness} {b : σ} {q : Program}, Storage.standing.rel L b q →
      ∃ M, Storage.standing.rel M (rs.foldl Request.layOut b) (rs.foldl Request.layOut q) := by
    induction rs with
    | nil => exact fun h => ⟨_, h⟩
    | cons r rs ih =>
      intro L b q h
      cases r with
      | add es =>
        obtain ⟨M, hM⟩ := (Expr.agree_buildAll h es).after
        exact ih hM
      | _ => exact ih h
  have hstart : Storage.standing.rel (.within fun _ => True) a (Storage.program a) := ⟨rfl, rfl⟩
  obtain ⟨L, hL⟩ := (Prelude.agree_functions hstart).after
  obtain ⟨M, hM⟩ := go hL
  exact hM.2

/-! ### A program next to itself -/

/-- What a program has, it has in the same places after it has grown. -/
theorem Renaming.of_grows {p q : Program} (hp : p.WellFormed) (hq : p.Grows q) :
    Renaming p q (.within p.Has) where
  text := by
    rintro n _ ⟨rfl, hn⟩
    exact (hq.text hn).symm
  empty := ⟨rfl, hp.empty⟩
  name_iff := by
    rintro a _ b _ ⟨rfl, -⟩ ⟨rfl, -⟩
    rfl
  node_iff := by
    rintro a _ b _ ⟨rfl, -⟩ ⟨rfl, -⟩
    rfl
  node := by
    rintro n _ ⟨rfl, hn⟩
    obtain ⟨a, ha⟩ := Option.ne_none_iff_exists'.1 (Program.node?_ne_none hn)
    refine ⟨a, a, ha, (hq.node? hn).trans ha, ?_, rfl⟩
    exact Likeness.onKind_within (fun m hm => ⟨rfl, hp.children_has hn ha m hm⟩) (hp.refs ha)
  number := by
    rintro a _ ⟨rfl, ha⟩
    obtain ⟨d, hd⟩ := Option.ne_none_iff_exists'.1 (Program.number?_ne_none ha)
    exact ⟨d, hd, (hq.number? ha).trans hd⟩
  suspended hn := hn
  scope := ⟨And.left, fun h => ⟨h, trivial⟩⟩
  data := ⟨And.left, fun h => ⟨h, trivial⟩⟩
  list := Iff.rfl

/-- Building the same on both sides, where both sides are one. -/
def Program.itself : Numbering :=
  { Program.growing .empty with
    isRenaming := by
      rintro L p _ h
      obtain rfl := h.same
      rw [h.alike]
      exact .of_grows h.extends_start.wellFormed (.refl p)
    size_le := by
      rintro L p _ h
      rw [h.same] }

/-! ### Machines that refer to what is there -/

/-- Everything that a store holds lies in a set. -/
structure Store.Intact (D : Ref → Prop) (σ : Store) : Prop where
  names : ∀ bs ∈ σ.scopes.toList, ∀ e ∈ bs.entries, D (.name e.1)
  bound : ∀ bs ∈ σ.scopes.toList, ∀ e ∈ bs.entries, e.2.value.Within D
  instances : ∀ d ∈ σ.instances.toList, d.Within D

/-- Everything that a machine holds is in the program: names were issued, and nodes are
there. -/
structure Machine.Intact (p : Program) (m : Machine) : Prop where
  store : m.store.Intact p.Has
  types : ∀ t ∈ m.types.entries, ∀ r ∈ t.refs, p.Has r
  calls : ∀ f ∈ m.calls.frames.toList, p.Has (.name f.name)

namespace Likeness

variable {D : Ref → Prop}

theorem onBindings_within {bs bs' : Bindings} :
    (within D).OnBindings bs bs' ↔
      bs = bs' ∧ ∀ e ∈ bs.entries, D (.name e.1) ∧ e.2.value.Within D := by
  have hentry : ∀ e e' : Name × Binding, (within D).OnEntry e e' ↔
      e = e' ∧ D (.name e.1) ∧ e.2.value.Within D := by
    rintro ⟨n, b⟩ ⟨n', b'⟩
    constructor
    · rintro ⟨⟨rfl, hn⟩, hb⟩
      obtain ⟨rfl, hvalue⟩ := onBinding_within.1 hb
      exact ⟨rfl, hn, hvalue⟩
    · rintro ⟨⟨⟩, hn, hb⟩
      exact ⟨⟨rfl, hn⟩, onBinding_within.2 ⟨rfl, hb⟩⟩
  obtain ⟨es⟩ := bs
  obtain ⟨es'⟩ := bs'
  rw [Bindings.mk.injEq]
  exact forall₂_within hentry

/-- A store that is like itself in a set holds nothing outside of it. -/
theorem onStore_within {σ σ' : Store} : (within D).OnStore σ σ' ↔ σ = σ' ∧ σ.Intact D := by
  constructor
  · rintro ⟨hs, hi, hl⟩
    obtain ⟨⟨ss⟩, ⟨is⟩, l⟩ := σ
    obtain ⟨⟨ss'⟩, ⟨is'⟩, l'⟩ := σ'
    obtain ⟨rfl, hscopes⟩ := (forall₂_within fun _ _ => onBindings_within).1 hs
    obtain ⟨rfl, hinstances⟩ := (forall₂_within fun _ _ => onInstance_within).1 hi
    obtain rfl : l = l' := hl
    exact ⟨rfl, fun bs hbs e he => (hscopes bs hbs e he).1,
      fun bs hbs e he => (hscopes bs hbs e he).2, hinstances⟩
  · rintro ⟨rfl, h⟩
    refine ⟨(forall₂_within fun _ _ => onBindings_within).2 ⟨rfl, fun bs hbs e he => ?_⟩,
      (forall₂_within fun _ _ => onInstance_within).2 ⟨rfl, h.instances⟩, rfl⟩
    exact ⟨h.names bs hbs e he, h.bound bs hbs e he⟩

theorem onTypes_within {τ τ' : Types} :
    (within D).OnTypes τ τ' ↔ τ = τ' ∧ ∀ t ∈ τ.entries, ∀ r ∈ t.refs, D r := by
  obtain ⟨ts⟩ := τ
  obtain ⟨ts'⟩ := τ'
  rw [Types.mk.injEq]
  exact forall₂_within fun _ _ => onDataType_within

theorem onCalls_within {cs cs' : CallStack} :
    (within D).OnCalls cs cs' ↔ cs = cs' ∧ ∀ f ∈ cs.frames.toList, D (.name f.name) := by
  have hframe : ∀ f f' : Frame, (within D).OnFrame f f' ↔ f = f' ∧ D (.name f.name) := by
    rintro ⟨n, sp⟩ ⟨n', sp'⟩
    constructor
    · rintro ⟨⟨rfl, hn⟩, hsp⟩
      obtain rfl : sp = sp' := hsp
      exact ⟨rfl, hn⟩
    · rintro ⟨⟨⟩, hn⟩
      exact ⟨⟨rfl, hn⟩, rfl⟩
  constructor
  · rintro ⟨hf, hl⟩
    obtain ⟨⟨fs⟩, l⟩ := cs
    obtain ⟨⟨fs'⟩, l'⟩ := cs'
    obtain ⟨rfl, hframes⟩ := (forall₂_within hframe).1 hf
    obtain rfl : l = l' := hl
    exact ⟨rfl, hframes⟩
  · rintro ⟨rfl, h⟩
    exact ⟨(forall₂_within hframe).2 ⟨rfl, h⟩, rfl⟩

end Likeness

/-! ### Steps that meet nothing else -/

/-- Leave alone every evaluation of a node that is there, from a machine that refers to
what is there.  Nothing is said about what else is done. -/
def Supervisor.Spares (v : Supervisor) (p : Program) : Prop :=
  ∀ (n : NodeId) (x : Eval Value) (m : Machine), n.index < p.size → m.Intact p → v n x m = x m

section

variable {p q : Program} (hp : p.WellFormed) (hq : p.Grows q)

/-- Machines that correspond are the same, and refer to what is there. -/
theorem Renaming.holds_of_grows {k k' : Control} {m m' : Machine}
    (h : (of_grows hp hq).simulation.Holds k k' m m') :
    k.calls = k'.calls ∧ m.store = m'.store ∧ m.types = m'.types ∧ m'.Intact p := by
  obtain ⟨hσ, hstore⟩ := Likeness.onStore_within.1 h.state.1
  obtain ⟨hτ, htypes⟩ := Likeness.onTypes_within.1 h.state.2
  obtain ⟨hcs, hcalls⟩ := Likeness.onCalls_within.1 h.calls
  have hright : m'.calls = k.calls := (congrArg Control.calls h.right).trans hcs.symm
  refine ⟨hcs, hσ, hτ, ?_, ?_, ?_⟩
  · rw [← hσ]
    exact hstore
  · rw [← hτ]
    exact htypes
  · rw [hright]
    exact hcalls

theorem Renaming.eq_of_holds_of_grows {k : Control} {m m' : Machine}
    (h : (of_grows hp hq).simulation.Holds k k m m') : m' = id m := by
  obtain ⟨-, hσ, hτ, -⟩ := holds_of_grows hp hq h
  have hsink : m.sink = m'.sink := h.sink
  have hcontrol : m'.control = m.control := h.right.trans h.left.symm
  obtain ⟨σ, τ, sink, s, cs⟩ := m
  obtain ⟨σ', τ', sink', s', cs'⟩ := m'
  obtain ⟨rfl, rfl⟩ : s' = s ∧ cs' = cs := by simpa [Machine.control] using hcontrol
  obtain rfl : σ = σ' := hσ
  obtain rfl : τ = τ' := hτ
  obtain rfl : sink = sink' := hsink
  rfl

/-- What leaves all that can happen alone is not noticed. -/
theorem Supervisor.Spares.transparent {v : Supervisor} (hv : v.Spares p) :
    v.Transparent (Renaming.of_grows hp hq).simulation := by
  rintro n _ k k' x y ⟨rfl, hn⟩ - hxy m m' hm
  rw [hv n y m' hn (Renaming.holds_of_grows hp hq hm).2.2.2]
  exact hxy m m' hm

end

namespace Session

variable {s : Session} {α : Type}

/-- A step, given by what it does in a context, has a good outcome, and does not depend
on references other than those that lead somewhere.  In a larger program others lead
anywhere; and whatever a supervisor does where one might be met, it is not noticed. -/
structure Safe (s : Session) (reach : Nat) (sink : Sink) (step : Context → Eval α) (P : α → Prop) :
    Prop where
  good : (s.perform sink (step (s.context reach))).1.Good P
  unnoticed : ∀ (q : Program) (v : Supervisor), s.program.Grows q → v.Spares s.program →
    step (v.context q s.fuel reach s.fuel) (s.machine sink) =
      step (s.context reach) (s.machine sink)

/-- A session that is valid, and refers to what is there. -/
structure Intact (s : Session) : Prop where
  valid : s.Valid
  machine : ∀ sink, (s.machine sink).Intact s.program

/-- A step that agrees with itself in contexts that agree is safe. -/
theorem Intact.safe (h : s.Intact) {reach : Nat} {sink : Sink} {step : Context → Eval α}
    {P : α → Prop} {A : α → α → Prop} (hA : ∀ {a b}, A a b → a = b)
    (hk : (validity s.program h.valid.program s.limit).Keeps P (s.machine sink)
      (step (s.context reach) (s.machine sink)))
    (hstep : ∀ {q : Program} (hq : s.program.Grows q) {c : Context},
      (Renaming.of_grows h.valid.program hq).simulation.Contexts (s.machine sink).control
        (s.machine sink).control (Likeness.within s.program.Has).node (s.context reach) c →
      (Renaming.of_grows h.valid.program hq).simulation.Agree (s.machine sink).control
        (s.machine sink).control A (step (s.context reach)) (step c)) :
    s.Safe reach sink step P where
  good := h.valid.perform_good hk
  unnoticed q v hq hv := by
    have hm := h.machine sink
    have hcalls := Likeness.onCalls_within.2 ⟨rfl, hm.calls⟩
    have hc : (Renaming.of_grows h.valid.program hq).simulation.Contexts
        (s.machine sink).control (s.machine sink).control _ (s.context reach)
        (v.context q s.fuel reach s.fuel) :=
      Simulation.supervised_contexts s.fuel reach (Renaming.of_grows h.valid.program hq).programs
        (hv.transparent h.valid.program hq) s.fuel ⟨rfl, trivial⟩ hcalls
    have heq := (hstep hq hc).eq_or_excused (g := id)
      ⟨rfl, rfl, hcalls, rfl, Likeness.onStore_within.2 ⟨rfl, hm.store⟩,
        Likeness.onTypes_within.2 ⟨rfl, hm.types⟩⟩ hA (fun he => he)
      (Renaming.eq_of_holds_of_grows h.valid.program hq)
    rw [Eval.mapMachine_id] at heq
    -- a valid session does not run out of fuel
    rcases heq with ⟨_, m, he, rfl⟩ | heq
    · rw [he] at hk
      cases hk with
      | error hregular _ _ => exact hregular.elim
    · exact heq

variable {v w : Value}

theorem Intact.safe_run (h : s.Intact) (reach : Nat) (sink : Sink) {roots : List NodeId}
    (hr : ∀ r ∈ roots, r.index < s.program.size) :
    s.Safe reach sink (LazyExpr.run · roots) (·.Within s.program.Has) := by
  have hroots : List.Forall₂ (Likeness.within s.program.Has).node roots roots :=
    List.forall₂_same.2 fun r hmem => ⟨rfl, hr r hmem⟩
  exact h.safe (fun hv => (Likeness.onValue_within.1 hv).1) (h.valid.run_keeps reach sink hr)
    fun _ _ hc => Simulation.run_agree hc hroots

theorem Intact.safe_display (h : s.Intact) (reach : Nat) (hv : v.Within s.program.Has) :
    s.Safe reach .emptyBuffer (·.display v) fun _ => True :=
  h.safe id (h.valid.display_keeps reach hv)
    fun _ _ hc => Simulation.display_text_agree hc (Likeness.onValue_within.2 ⟨rfl, hv⟩)

theorem Intact.safe_equal (h : s.Intact) (reach : Nat) (hv : v.Within s.program.Has)
    (hw : w.Within s.program.Has) :
    s.Safe reach .emptyBuffer (fun c => v.equal c.force c.reach w) fun _ => True :=
  h.safe id (h.valid.equal_keeps reach hv hw) fun _ _ hc =>
    Simulation.equal_agree hc (Likeness.onValue_within.2 ⟨rfl, hv⟩)
      (Likeness.onValue_within.2 ⟨rfl, hw⟩)

theorem Intact.safe_apply (h : s.Intact) (reach : Nat) (op : BinaryOp)
    (hv : v.Within s.program.Has) (hw : w.Within s.program.Has) :
    s.Safe reach .emptyBuffer (fun c => op.apply c.force c.reach v w)
      (·.Within s.program.Has) :=
  h.safe (fun hu => (Likeness.onValue_within.1 hu).1) (h.valid.apply_keeps reach op hv hw)
    fun _ _ hc => Simulation.apply_agree hc op (Likeness.onValue_within.2 ⟨rfl, hv⟩)
      (Likeness.onValue_within.2 ⟨rfl, hw⟩)

end Session

/-! ### Hosts -/

namespace Host

variable {h : Host} {L : Likeness}

/-- A host that is the same as itself, up to a numbering of its program next to itself,
refers to what is there. -/
theorem Alike.intact (ha : h.Alike Program.itself L h) (hv : h.Valid) :
    h.session.program.Ordered ∧ h.session.Intact := by
  have hgrown : Program.Grown .empty L h.session.program h.session.program := ha.session.program
  have hstore := ha.session.store
  have htypes := ha.session.types
  rw [hgrown.alike] at hstore htypes
  refine ⟨hgrown.ordered Program.ordered_empty, hv.session, fun sink => ?_⟩
  exact ⟨(Likeness.onStore_within.1 hstore).2, (Likeness.onTypes_within.1 htypes).2, nofun⟩

/-- The arena that is filled by the requests stands for the program of the host. -/
theorem program_layOutAll (limit : Nat) (requests : List Request) :
    Storage.program (Request.layOutAll Arena.empty requests) =
      ((start (.withPrelude limit)).answerAll requests).2.session.program := by
  have hempty : Storage.program Arena.empty = Program.empty := Arena.program_empty
  rw [Request.program_layOutAll, program_answerAll, Request.layOutAll, hempty, start,
    Session.program_withPrelude]

/-- What a host gets to over a fresh program is the same as itself. -/
theorem alike_itself (limit : Nat) (requests : List Request) :
    ∃ L, Alike Program.itself L ((start (.withPrelude limit)).answerAll requests).2
      ((start (.withPrelude limit)).answerAll requests).2 := by
  have hempty := Program.grown_self Program.wellFormed_empty
  obtain ⟨L, -, hstart⟩ := Session.alike_withPreludeIn (N := Program.itself) hempty limit
  rw [Session.withPreludeIn_empty] at hstart
  have hvalid := valid_start (Session.valid_withPrelude limit)
  exact ((alike_start hstart).answerAll hvalid requests).2

end Host

/-- Whatever a host asks for over a fresh program.  The arena that its requests fill is
read without leaving a table, its nodes stand after all that they mention, and what is
held anywhere refers to names that were issued and nodes that are there.  So every run,
text, comparison and operator is safe, and stays inside of the lists that it is given. -/
theorem references_stay_valid (limit : Nat) (requests : List Request) :
    let h := ((Host.start (.withPrelude limit)).answerAll requests).2
    let p := h.session.program
    let a := Request.layOutAll Arena.empty requests
    ((∀ id, a.node? id = p.node? id) ∧ a.numbers = p.numbers ∧ a.names = p.names) ∧
    (p.WellFormed ∧ p.Ordered) ∧
    ((∀ sink, (h.session.machine sink).Intact p) ∧
      (∀ n ∈ h.nodes, n.index < p.size) ∧ ∀ v ∈ h.values, v.Within p.Has) ∧
    (∀ reach sink roots, (∀ r ∈ roots, r.index < p.size) →
      h.session.Safe reach sink (run · roots) (·.Within p.Has)) ∧
    (∀ reach v, v.Within p.Has →
      h.session.Safe reach .emptyBuffer (·.display v) fun _ => True) ∧
    (∀ reach v w, v.Within p.Has → w.Within p.Has →
      h.session.Safe reach .emptyBuffer (fun c => v.equal c.force c.reach w) (fun _ => True) ∧
      ∀ op : BinaryOp, h.session.Safe reach .emptyBuffer
        (fun c => op.apply c.force c.reach v w) (·.Within p.Has)) ∧
    (∀ v n (i : Fin n), n ≤ 9223372036854775807 →
      (Context.position v n = .ok i ↔ ∃ d, v = .number d ∧ d.toRat = (i : Nat))) ∧
    ∀ (items r : List Thunk) (count : Decimal), Operation.repeatItems items count = .ok r →
      ∃ copies part : Nat, (copies : ℤ) = ⌊|count.toRat|⌋ ∧
        (part : ℚ) ≤ Int.fract |count.toRat| * items.length ∧ part ≤ items.length ∧
        (if count.isNegative then r.reverse else r) =
          (List.replicate copies items).flatten ++ items.take part := by
  intro h p a
  have hv : h.Valid := (Host.valid_start (Session.valid_withPrelude limit)).answerAll requests
  obtain ⟨L, hL⟩ := Host.alike_itself limit requests
  obtain ⟨hordered, hs⟩ := hL.intact hv
  have ha : a.program = p := Host.program_layOutAll limit requests
  refine ⟨⟨fun id => ?_, congrArg Program.numbers ha, congrArg Program.names ha⟩,
    ⟨hv.session.program, hordered⟩, ⟨hs.machine, hv.nodes, hv.values⟩, ?_, ?_, ?_, ?_, ?_⟩
  · rw [← ha]
    exact a.node?_eq id
  · exact fun reach sink roots hr => hs.safe_run reach sink hr
  · exact fun reach v hvalue => hs.safe_display reach hvalue
  · exact fun reach v w hvalue hother =>
      ⟨hs.safe_equal reach hvalue hother, fun op => hs.safe_apply reach op hvalue hother⟩
  · exact fun v n i hn => Context.position_eq_ok_iff hn
  · exact fun items r count hr => Operation.repeatItems_eq_ok hr

/-- After `xs = [1, 2]` and `xs[1.0]`, both nodes can be run again, the value that was got
can be shown, and `1.0` is the second place of the list. -/
theorem references_stay_valid_of_index :
    let requests : List Request :=
      [.add [.assign .mutable "xs" (.list [.integer 1, .integer 2]),
          .index (.ident "xs") (.decimal ⟨10, 1⟩)],
        .run 1 .emptyBuffer [0, 1]]
    let h := ((Host.start (.withPrelude 1)).answerAll requests).2
    h.nodes.length = 2 ∧ h.values.length = 1 ∧
      h.session.Safe 1 .emptyBuffer (run · h.nodes) (·.Within h.session.program.Has) ∧
      (∀ v ∈ h.values, h.session.Safe 1 .emptyBuffer (·.display v) fun _ => True) ∧
      Context.position (.number ⟨10, 1⟩) 2 = .ok 1 := by
  intro requests
  have hnodes : ((Host.start (.withPrelude 1)).answerAll requests).2.nodes.length = 2 := by
    decide +kernel
  have hvalues : ((Host.start (.withPrelude 1)).answerAll requests).2.values.length = 1 := by
    decide +kernel
  have hall := references_stay_valid 1 requests
  generalize ((Host.start (.withPrelude 1)).answerAll requests).2 = h at hnodes hvalues hall ⊢
  obtain ⟨-, -, ⟨-, hn, hv⟩, hrun, hdisplay, -, hplace, -⟩ := hall
  refine ⟨hnodes, hvalues, hrun 1 _ _ hn, fun v hmem => hdisplay 1 v (hv v hmem), ?_⟩
  refine (hplace _ 2 1 (by decide)).mpr ⟨_, rfl, ?_⟩
  norm_num [Decimal.toRat]

end LazyExpr
