/-
LazyExpr/Proofs/Numbering.lean

What a host sees does not depend on how things are numbered.

Names, decimals and nodes are numbered in the order in which they join a program, so
what was in it before shifts all numbers, and names that were there already are even
numbered in another order.  Two programs are numbered side by side when the same is
built in both; a likeness that grows on the way says what of the one stands for what of
the other, and it is a renaming all the time (`Numbering`).

Two hosts that ask for the same, over programs that are numbered side by side, get the
same replies, and what they hold and what is in their stores goes on to correspond
(`Host.Alike.answer`).  The left one has no more nodes, and so no more fuel; but it is
valid, and does not run out of it.

The case at hand is a program that starts empty next to one that has been in use: names
stand for each other when they have the same text (`Program.sideBySide`).
-/
import LazyExpr.Proofs.Building
import LazyExpr.Proofs.Host
import LazyExpr.Proofs.Reading
import LazyExpr.Proofs.Renaming

namespace LazyExpr

/-- What relates programs that are built side by side. -/
structure Numbering extends Correspondence Program Program where
  isRenaming : ∀ {L p p'}, rel L p p' → Renaming p p' L
  size_le : ∀ {L p p'}, rel L p p' → p.size ≤ p'.size

/-! ### Sessions -/

/-- Outcomes are the same, up to the values. -/
inductive OnOutcome {α β : Type} (A : α → β → Prop) : Outcome α → Outcome β → Prop
  | ok {a : α} {b : β} (output : String) : A a b → OnOutcome A ⟨.ok a, output⟩ ⟨.ok b, output⟩
  | error (e : Stop) (output : String) : OnOutcome A ⟨.error e, output⟩ ⟨.error e, output⟩

theorem OnOutcome.eq {α : Type} {o o' : Outcome α} (h : OnOutcome (· = ·) o o') : o = o' := by
  cases h with
  | ok output hab => rw [hab]
  | error e output => rfl

namespace Session

variable {N : Numbering} {L : Likeness} {s s' : Session}

/-- Sessions that are the same up to numbering. -/
structure Alike (N : Numbering) (L : Likeness) (s s' : Session) : Prop where
  program : N.rel L s.program s'.program
  store : L.OnStore s.store s'.store
  types : L.OnTypes s.types s'.types
  globals : s.globals = s'.globals
  limit : s.limit = s'.limit

namespace Alike

/-- The simulation of one session by the other. -/
def simulation (h : Alike N L s s') : Simulation s.program s'.program :=
  (N.isRenaming h.program).simulation

theorem contexts (h : Alike N L s s') (reach : Nat) (sink : Sink) :
    h.simulation.Contexts (s.machine sink).control (s'.machine sink).control L.node
      (s.context reach) (s'.context reach) := by
  have hfuel : s.fuel ≤ s'.fuel := by
    unfold Session.fuel
    rw [h.limit]
    exact Nat.mul_le_mul_left _ (N.size_le h.program)
  exact Simulation.context_agree (N.isRenaming h.program).programs (.inr ⟨hfuel, rfl⟩) (.inl rfl)
    (.inr ⟨hfuel, rfl⟩) ((N.isRenaming h.program).scope.2 h.globals) ⟨.nil, h.limit⟩

/-- Steps that agree have the same outcome, if the left one is regular. -/
theorem perform (h : Alike N L s s') (hs : s.Valid) {α β : Type} {A : α → β → Prop} {P : α → Prop}
    {sink : Sink} {x : Eval α} {x' : Eval β}
    (hx : h.simulation.Agree (s.machine sink).control (s'.machine sink).control A x x')
    (hk : (validity s.program hs.program s.limit).Keeps P (s.machine sink) (x (s.machine sink))) :
    OnOutcome A (s.perform sink x).1 (s'.perform sink x').1 ∧
      Alike N L (s.perform sink x).2 (s'.perform sink x').2 := by
  have hr := hx (s.machine sink) (s'.machine sink)
    ⟨rfl, rfl, ⟨.nil, h.limit⟩, rfl, h.store, h.types⟩
  unfold Session.perform
  generalize x (s.machine sink) = r, x' (s'.machine sink) = r' at hr hk
  cases hr with
  | @ok a b m m' hab hm =>
    have hsink : m.sink = m'.sink := hm.sink
    dsimp only
    rw [hsink]
    exact ⟨.ok _ hab, h.program, hm.state.1, hm.state.2, h.globals, h.limit⟩
  | @error e e' m m' he hm =>
    have hsink : m.sink = m'.sink := hm.sink
    obtain rfl : e = e' := he
    dsimp only
    rw [hsink]
    exact ⟨.error _ _, h.program, hm.state.1, hm.state.2, h.globals, h.limit⟩
  | excused he _ =>
    -- the fuel of a valid session is enough
    cases hk with
    | error hregular _ _ =>
      rw [show _ = Stop.outOfFuel from he] at hregular
      exact hregular.elim

/-- Add the same expressions on both sides. -/
theorem addAll (h : Alike N L s s') (es : List Expr) :
    ∃ M, L.Grows M ∧ Alike N M (s.addAll es).2 (s'.addAll es).2 ∧
      ((∃ e, (s.addAll es).1 = .error e ∧ (s'.addAll es).1 = .error e) ∨
        ∃ ids ids', (s.addAll es).1 = .ok ids ∧ (s'.addAll es).1 = .ok ids' ∧
          List.Forall₂ M.node ids ids') := by
  have hb := Expr.agree_buildAll h.program es
  unfold Correspondence.Agree at hb
  unfold Session.addAll
  generalize Expr.buildAll es s.program = r, Expr.buildAll es s'.program = r' at hb
  cases hb with
  | @ok M _ _ ids ids' hM hp hids =>
    refine ⟨M, hM, ⟨hp, hM.onStore h.store, hM.onTypes h.types, h.globals, h.limit⟩, .inr ?_⟩
    exact ⟨ids, ids', rfl, rfl, Correspondence.node_of_onBuilt hids⟩
  | @error M _ _ e hM hp =>
    exact ⟨M, hM, ⟨hp, hM.onStore h.store, hM.onTypes h.types, h.globals, h.limit⟩, .inl ⟨e, rfl, rfl⟩⟩

end Alike

/-- A session with the prelude bound, in a program that may have been in use. -/
def withPreludeIn (p : Program) (limit : Nat) : Session :=
  withBindings (Prelude.install p).1 (Prelude.install p).2 limit

theorem withPreludeIn_empty (limit : Nat) : withPreludeIn .empty limit = withPrelude limit := by
  unfold withPreludeIn withPrelude
  generalize Prelude.install .empty = r
  rfl

theorem onBindings_prelude {p p' : Program} (h : Renaming p p' L) {fs fs' : List Function}
    (hfs : List.Forall₂ L.OnFunction fs fs') :
    L.OnBindings (Prelude.bindings fs) (Prelude.bindings fs') := by
  have go : ∀ {bs bs' : Bindings}, L.OnBindings bs bs' → L.OnBindings
      (fs.foldl (fun bs f => bs.insert f.name ⟨.function f, .mutable⟩) bs)
      (fs'.foldl (fun bs f => bs.insert f.name ⟨.function f, .mutable⟩) bs') := by
    induction hfs with
    | nil => exact fun hbs => hbs
    | cons hf _ ih => exact fun hbs => ih (h.insert hbs hf.name ⟨.function hf, rfl⟩)
  exact go .nil

/-- Sessions are alike from the start if their programs are. -/
theorem alike_withPreludeIn {p p' : Program} (hp : N.rel L p p') (limit : Nat) :
    ∃ M, L.Grows M ∧ Alike N M (withPreludeIn p limit) (withPreludeIn p' limit) := by
  have hb := Prelude.agree_functions hp
  unfold Correspondence.Agree at hb
  unfold withPreludeIn Prelude.install
  generalize Prelude.functions p = r, Prelude.functions p' = r' at hb
  have halike : ∀ {M q q' bs bs'}, N.rel M q q' → M.OnBindings bs bs' →
      Alike N M (withBindings q bs limit) (withBindings q' bs' limit) :=
    fun hq hbs => ⟨hq, ⟨.cons hbs .nil, .nil, rfl⟩, .nil, rfl, rfl⟩
  cases hb with
  | ok hM hq hfs => exact ⟨_, hM, halike hq (onBindings_prelude (N.isRenaming hq) hfs)⟩
  | error e hM hq => exact ⟨_, hM, halike hq .nil⟩

end Session

/-! ### Hosts -/

namespace Host

variable {N : Numbering} {L : Likeness} {h h' : Host}

/-- Hosts that are the same up to numbering. -/
structure Alike (N : Numbering) (L : Likeness) (h h' : Host) : Prop where
  session : h.session.Alike N L h'.session
  nodes : List.Forall₂ L.node h.nodes h'.nodes
  values : List.Forall₂ L.OnValue h.values h'.values

/-- What is asked for by place is there for both, or for none. -/
theorem forall₂_mapM {α β : Type} {R : α → β → Prop} {xs : List α} {ys : List β}
    (hxy : List.Forall₂ R xs ys) (is : List Nat) :
    Option.Rel (List.Forall₂ R) (is.mapM (xs[·]?)) (is.mapM (ys[·]?)) := by
  induction is with
  | nil => exact .some .nil
  | cons i is ih =>
    rw [List.mapM_cons, List.mapM_cons]
    have hi := forall₂_getElem? hxy i
    generalize xs[i]? = x, ys[i]? = y at hi
    generalize is.mapM (xs[·]?) = us, is.mapM (ys[·]?) = vs at ih
    cases hi with
    | none => exact .none
    | some hab =>
      cases ih with
      | none => exact .none
      | some huv => exact .some (.cons hab huv)

theorem alike_start {s s' : Session} (hs : s.Alike N L s') : (start s).Alike N L (start s') :=
  ⟨hs, .nil, .nil⟩

namespace Alike

/-- The same request is answered by the same reply. -/
def Answers (N : Numbering) (L : Likeness) (a a' : Reply × Host) : Prop :=
  a.1 = a'.1 ∧ ∃ M, L.Grows M ∧ Alike N M a.2 a'.2

theorem take (ha : Alike N L h h') {r r' : Outcome Value × Session}
    (hr : OnOutcome L.OnValue r.1 r'.1) (hs : r.2.Alike N L r'.2) :
    Answers N L (h.take r) (h'.take r') := by
  obtain ⟨o, s⟩ := r
  obtain ⟨o', s'⟩ := r'
  cases hr with
  | ok output hv =>
    simp only [Host.take, hv.typeName_eq]
    exact ⟨rfl, L, .refl L, hs, ha.nodes, List.rel_append ha.values (.cons hv .nil)⟩
  | error e output => exact ⟨rfl, L, .refl L, hs, ha.nodes, ha.values⟩

/-- The hosts stay alike when a request has something to refuse. -/
theorem refused (ha : Alike N L h h') : Answers N L (.refused, h) (.refused, h') :=
  ⟨rfl, L, .refl L, ha⟩

/-- One request. -/
theorem answer (ha : Alike N L h h') (hv : h.Valid) (r : Request) :
    Answers N L (h.answer r) (h'.answer r) := by
  have hvalue : ∀ {i : Nat} {v : Value}, h.values[i]? = some v → v.Within h.session.program.Has :=
    fun hi => hv.values _ (List.mem_of_getElem? hi)
  cases r with
  | add es =>
    obtain ⟨M, hM, hs, hids⟩ := ha.session.addAll es
    have hnodes : List.Forall₂ M.node h.nodes h'.nodes := ha.nodes.imp fun _ _ => hM.node
    have hvalues : List.Forall₂ M.OnValue h.values h'.values := ha.values.imp fun _ _ => hM.onValue
    simp only [Host.answer]
    generalize h.session.addAll es = x, h'.session.addAll es = x' at hs hids
    obtain ⟨x, s⟩ := x
    obtain ⟨x', s'⟩ := x'
    rcases hids with ⟨e, rfl, rfl⟩ | ⟨ids, ids', rfl, rfl, hids⟩
    · exact ⟨rfl, M, hM, hs, hnodes, hvalues⟩
    · refine ⟨?_, M, hM, hs, List.rel_append hnodes hids, hvalues⟩
      exact congrArg (fun n => Reply.added (.ok n)) hids.length_eq
  | run reach sink roots =>
    have hroots := forall₂_mapM ha.nodes roots
    simp only [Host.answer]
    generalize hids : roots.mapM (h.nodes[·]?) = ids, roots.mapM (h'.nodes[·]?) = ids' at hroots
    cases hroots with
    | none => exact ha.refused
    | some hroots =>
      have hk := hv.session.run_keeps reach sink fun n hn => hv.nodes n (mem_of_mapM hids n hn)
      have hx := Simulation.run_agree (ha.session.contexts reach sink) hroots
      obtain ⟨ho, hs⟩ := ha.session.perform hv.session hx hk
      exact ha.take ho hs
  | display reach i =>
    have hi := forall₂_getElem? ha.values i
    simp only [Host.answer]
    generalize hget : h.values[i]? = v, h'.values[i]? = v' at hi
    cases hi with
    | none => exact ha.refused
    | some hi =>
      have hk := hv.session.display_keeps reach (hvalue hget)
      have hx := Simulation.display_text_agree (ha.session.contexts reach .emptyBuffer) hi
      obtain ⟨ho, hs⟩ := ha.session.perform hv.session hx hk
      exact ⟨congrArg Reply.text ho.eq, L, .refl L, hs, ha.nodes, ha.values⟩
  | equal reach i j =>
    have hi := forall₂_getElem? ha.values i
    have hj := forall₂_getElem? ha.values j
    simp only [Host.answer]
    generalize hleft : h.values[i]? = v, h'.values[i]? = v' at hi
    generalize hright : h.values[j]? = w, h'.values[j]? = w' at hj
    cases hi with
    | none => exact ha.refused
    | some hi =>
      cases hj with
      | none => exact ha.refused
      | some hj =>
        have hk := hv.session.equal_keeps reach (hvalue hleft) (hvalue hright)
        have hx := Simulation.equal_agree (ha.session.contexts reach .emptyBuffer) hi hj
        obtain ⟨ho, hs⟩ := ha.session.perform hv.session hx hk
        exact ⟨congrArg Reply.truth ho.eq, L, .refl L, hs, ha.nodes, ha.values⟩
  | apply reach op i j =>
    have hi := forall₂_getElem? ha.values i
    have hj := forall₂_getElem? ha.values j
    simp only [Host.answer]
    generalize hleft : h.values[i]? = v, h'.values[i]? = v' at hi
    generalize hright : h.values[j]? = w, h'.values[j]? = w' at hj
    cases hi with
    | none => exact ha.refused
    | some hi =>
      cases hj with
      | none => exact ha.refused
      | some hj =>
        have hk := hv.session.apply_keeps reach op (hvalue hleft) (hvalue hright)
        have hx := Simulation.apply_agree (ha.session.contexts reach .emptyBuffer) op hi hj
        obtain ⟨ho, hs⟩ := ha.session.perform hv.session hx hk
        exact ha.take ho hs

/-- Any number of requests, by induction on them. -/
theorem answerAll (ha : Alike N L h h') (hv : h.Valid) (rs : List Request) :
    (h.answerAll rs).1 = (h'.answerAll rs).1 ∧
      ∃ M, Alike N M (h.answerAll rs).2 (h'.answerAll rs).2 := by
  induction rs generalizing L h h' with
  | nil => exact ⟨rfl, L, ha⟩
  | cons r rs ih =>
    obtain ⟨hreply, M, -, hnext⟩ := ha.answer hv r
    obtain ⟨hreplies, hlast⟩ := ih hnext (hv.answer r).1
    rw [answerAll_cons, answerAll_cons, hreply, hreplies]
    exact ⟨rfl, hlast⟩

end Alike

end Host

/-! ### Names with the same text -/

namespace Names

/-- The first name is that of the empty text, and no text has two names. -/
structure Proper (ns : Names) : Prop where
  empty : ns.text? .empty = some ""
  unique : ∀ {a b t}, ns.text? a = some t → ns.text? b = some t → a = b

theorem proper_initial : initial.Proper where
  empty := rfl
  unique := eq_of_text?

/-- A text that is met for the first time joins the table, and has one name then. -/
theorem Proper.intern {ns : Names} (h : ns.Proper) (t : String) : (ns.intern t).2.Proper where
  empty := by
    rw [text?_intern_of_lt ns t (index_lt_of_text? h.empty)]
    exact h.empty
  unique := eq_of_text?

end Names

namespace Program

variable {p p' q q' : Program} {L M : Likeness}

/-- However a program was made, no text has two names in it. -/
theorem proper_of_later (h : Storage.Later empty p) : p.names.Proper := by
  induction h with
  | refl => exact Names.proper_initial
  | addNode n _ ih => exact ih
  | addNumber d _ ih => exact ih
  | addName t _ ih => exact ih.intern t

/-- Names that were issued for the same text. -/
def SameText (p p' : Program) (n n' : Name) : Prop :=
  ∃ t, p.names.text? n = some t ∧ p'.names.text? n' = some t

theorem SameText.grow {n n' : Name} (h : p.SameText p' n n') (hq : p.Grows q) (hq' : p'.Grows q') :
    q.SameText q' n n' := by
  obtain ⟨t, ht, ht'⟩ := h
  exact ⟨t, hq.stays_text n t ht, hq'.stays_text n' t ht'⟩

theorem SameText.text_eq {n n' : Name} (h : p.SameText p' n n') :
    p.names.text n = p'.names.text n' := by
  obtain ⟨t, ht, ht'⟩ := h
  rw [Names.text, Names.text, ht, ht']

/-- Names of one text are the same name, on each side. -/
theorem SameText.eq_iff (hp : p.names.Proper) (hp' : p'.names.Proper) {a a' b b' : Name}
    (ha : p.SameText p' a a') (hb : p.SameText p' b b') : a = b ↔ a' = b' := by
  obtain ⟨t, ht, ht'⟩ := ha
  obtain ⟨u, hu, hu'⟩ := hb
  constructor
  · rintro rfl
    obtain rfl : t = u := Option.some.inj (ht.symm.trans hu)
    exact hp'.unique ht' hu'
  · rintro rfl
    obtain rfl : t = u := Option.some.inj (ht'.symm.trans hu')
    exact hp.unique ht hu

/-- Decimals that are the same. -/
def SameNumber (p p' : Program) (a a' : NumberId) : Prop :=
  ∃ d, p.number? a = some d ∧ p'.number? a' = some d

/-- Programs in which the same was built: names are alike only if they have the same
text, and of a text there is one name at most on each side. -/
structure SideBySide (L : Likeness) (p p' : Program) : Prop where
  isRenaming : Renaming p p' L
  size_le : p.size ≤ p'.size
  left : p.names.Proper
  right : p'.names.Proper
  name : ∀ {n n'}, L.name n n' → p.SameText p' n n'

namespace SideBySide

/-- What is alike goes on to be, when both programs grow. -/
theorem node_grow (h : SideBySide L p p') (hM : L.Grows M) (hq : p.Grows q) (hq' : p'.Grows q')
    {n n' : NodeId} (hn : L.node n n') :
    ∃ a a', q.node? n = some a ∧ q'.node? n' = some a' ∧ M.OnNode M.node a a' := by
  obtain ⟨a, a', ha, ha', hnode⟩ := h.isRenaming.node hn
  exact ⟨a, a', hq.stays_node n a ha, hq'.stays_node n' a' ha', hM.onKind hM.node hnode.kind,
    hnode.span⟩

theorem number_grow (h : SideBySide L p p') (hq : p.Grows q) (hq' : p'.Grows q')
    {a a' : NumberId} (ha : L.number a a') : q.SameNumber q' a a' := by
  obtain ⟨d, hd, hd'⟩ := h.isRenaming.number ha
  exact ⟨d, hq.stays_number a d hd, hq'.stays_number a' d hd'⟩

theorem addName (h : SideBySide L p p') (t : String) :
    ∃ M, L.Grows M ∧ SideBySide M (p.addName t).2 (p'.addName t).2 ∧
      M.name (p.addName t).1 (p'.addName t).1 := by
  have hq := p.grows_addName t
  have hq' := p'.grows_addName t
  let M : Likeness := { L with name := (p.addName t).2.SameText (p'.addName t).2 }
  have hM : L.Grows M :=
    { Likeness.Grows.refl L with name := fun hn => (h.name hn).grow hq hq' }
  have hleft := h.left.intern t
  have hright := h.right.intern t
  refine ⟨M, hM, ⟨?_, h.size_le, hleft, hright, fun hn => hn⟩, ?_⟩
  · exact
      { h.isRenaming with
        text := fun hn => hn.text_eq
        empty := ⟨"", hleft.empty, hright.empty⟩
        name_iff := fun ha hb => ha.eq_iff hleft hright hb
        node := fun hn => h.node_grow hM hq hq' hn }
  · exact ⟨t, p.names.text?_intern t, p'.names.text?_intern t⟩

theorem addNumber (h : SideBySide L p p') (d : Decimal) :
    ∃ M, L.Grows M ∧ SideBySide M (p.addNumber d).2 (p'.addNumber d).2 ∧
      M.number (p.addNumber d).1 (p'.addNumber d).1 := by
  have hq := p.grows_addNumber d
  have hq' := p'.grows_addNumber d
  let M : Likeness := { L with number := (p.addNumber d).2.SameNumber (p'.addNumber d).2 }
  have hM : L.Grows M :=
    { Likeness.Grows.refl L with number := fun ha => h.number_grow hq hq' ha }
  refine ⟨M, hM, ⟨?_, h.size_le, h.left, h.right, fun hn => h.name hn⟩, ?_⟩
  · exact
      { h.isRenaming with
        node := fun hn => h.node_grow hM hq hq' hn
        number := fun ha => ha }
  · exact ⟨d, Array.getElem?_push_size, Array.getElem?_push_size⟩

theorem addNode (h : SideBySide L p p') {k k' : Kind} (span : Span) (hk : L.OnKind L.node k k') :
    ∃ M, L.Grows M ∧ SideBySide M (p.addNode ⟨k, span⟩).2 (p'.addNode ⟨k', span⟩).2 ∧
      M.node (p.addNode ⟨k, span⟩).1 (p'.addNode ⟨k', span⟩).1 ∧
      M.suspended (p.addNode ⟨k, span⟩).1 (p'.addNode ⟨k', span⟩).1 := by
  have hq := p.grows_addNode ⟨k, span⟩
  have hq' := p'.grows_addNode ⟨k', span⟩
  let new (n n' : NodeId) : Prop := n = ⟨p.size⟩ ∧ n' = ⟨p'.size⟩
  let M : Likeness :=
    { L with
      node := fun n n' => L.node n n' ∨ new n n'
      suspended := fun n n' => L.suspended n n' ∨ new n n' }
  have hM : L.Grows M := { Likeness.Grows.refl L with node := .inl, suspended := .inl }
  -- a node that has stood for one before is not the new one
  have hold : ∀ {n n'}, L.node n n' → n ≠ ⟨p.size⟩ ∧ n' ≠ ⟨p'.size⟩ := by
    intro n n' hn
    obtain ⟨a, a', ha, ha', -⟩ := h.isRenaming.node hn
    have hlt := lt_of_node? ha
    have hlt' := lt_of_node? ha'
    constructor
    · rintro rfl
      exact absurd hlt (Nat.lt_irrefl _)
    · rintro rfl
      exact absurd hlt' (Nat.lt_irrefl _)
  refine ⟨M, hM, ⟨?_, ?_, h.left, h.right, fun hn => h.name hn⟩, .inr ⟨rfl, rfl⟩, .inr ⟨rfl, rfl⟩⟩
  · exact
      { h.isRenaming with
        node_iff := by
          rintro a a' b b' (ha | ⟨rfl, rfl⟩) (hb | ⟨rfl, rfl⟩)
          · exact h.isRenaming.node_iff ha hb
          · exact iff_of_false (hold ha).1 (hold ha).2
          · exact iff_of_false (hold hb).1.symm (hold hb).2.symm
          · exact iff_of_true rfl rfl
        node := by
          rintro n n' (hn | ⟨rfl, rfl⟩)
          · exact h.node_grow hM hq hq' hn
          · exact ⟨⟨k, span⟩, ⟨k', span⟩, Array.getElem?_push_size, Array.getElem?_push_size,
              hM.onKind hM.node hk, rfl⟩
        suspended := by
          rintro n n' (hn | hn)
          · exact .inl (h.isRenaming.suspended hn)
          · exact .inr hn }
  · have hle : p.nodes.size ≤ p'.nodes.size := h.size_le
    simpa [Program.addNode, size] using hle

end SideBySide

/-- Building the same on both sides. -/
def sideBySide : Numbering where
  rel := SideBySide
  add_name t h := h.addName t
  add_number d h := h.addNumber d
  add_node span h hk := h.addNode span hk
  isRenaming h := h.isRenaming
  size_le h := h.size_le

/-- Nothing has been built yet, and no node stands for another. -/
theorem sideBySide_empty (hp : p.names.Proper) : ∃ L, SideBySide L empty p := by
  let L : Likeness := ⟨⟨empty.SameText p, fun _ _ => False, fun _ _ => False, fun _ _ => False⟩,
    (· = ·), (· = ·), (· = ·)⟩
  refine ⟨L, ⟨?_, Nat.zero_le _, Names.proper_initial, hp, fun hn => hn⟩⟩
  exact
    { text := fun hn => hn.text_eq
      empty := ⟨"", rfl, hp.empty⟩
      name_iff := fun ha hb => ha.eq_iff Names.proper_initial hp hb
      node_iff := fun hn => hn.elim
      node := fun hn => hn.elim
      number := fun ha => ha.elim
      suspended := fun hn => hn.elim
      scope := Iff.rfl
      data := Iff.rfl
      list := Iff.rfl }

end Program

/-- Whatever a program was used for before, a host over it sees what it would see over a
fresh one, and ends in a state that is the same up to a renaming. -/
theorem numbering_unobservable (p : Program) (hp : Storage.Later Program.empty p) (limit : Nat)
    (requests : List Request) :
    let fresh := (Host.start (.withPrelude limit)).answerAll requests
    let used := (Host.start (.withPreludeIn p limit)).answerAll requests
    used.1 = fresh.1 ∧
      ∃ L, Renaming fresh.2.session.program used.2.session.program L ∧
        L.OnStore fresh.2.session.store used.2.session.store ∧
        L.OnTypes fresh.2.session.types used.2.session.types ∧
        fresh.2.session.globals = used.2.session.globals ∧
        List.Forall₂ L.node fresh.2.nodes used.2.nodes ∧
        List.Forall₂ L.OnValue fresh.2.values used.2.values := by
  intro fresh used
  obtain ⟨L, hL⟩ := Program.sideBySide_empty (Program.proper_of_later hp)
  obtain ⟨M, -, hstart⟩ := Session.alike_withPreludeIn (N := Program.sideBySide) hL limit
  rw [Session.withPreludeIn_empty] at hstart
  have hvalid := Host.valid_start (Session.valid_withPrelude limit)
  obtain ⟨hreplies, K, hK⟩ := (Host.alike_start hstart).answerAll hvalid requests
  refine ⟨hreplies.symm, K, hK.session.program.isRenaming, hK.session.store, hK.session.types,
    hK.session.globals, hK.nodes, hK.values⟩

/-- A node and the name `x` are there already.  Then `x = 1` and `println(x)` have other
nodes than in a fresh program, and print the same. -/
theorem numbering_unobservable_after_use :
    let p := ((Program.empty.addName "x").2.addNode ⟨.void, .unlocated⟩).2
    let requests : List Request :=
      [.add [.assign .mutable "x" (.integer 1), .callNamed "println" [.ident "x"]],
        .run 1 .emptyBuffer [0, 1]]
    let fresh := (Host.start (.withPrelude 1)).answerAll requests
    let used := (Host.start (.withPreludeIn p 1)).answerAll requests
    Storage.Later Program.empty p ∧ fresh.2.nodes ≠ used.2.nodes ∧ used.1 = fresh.1 := by
  intro p requests fresh used
  have hp : Storage.Later Program.empty p := (Storage.Later.refl.addName "x").addNode _
  have hnodes : fresh.2.nodes ≠ used.2.nodes := by decide +kernel
  exact ⟨hp, hnodes, (numbering_unobservable p hp 1 requests).1⟩

end LazyExpr
