/-
LazyExpr/Proofs/Layout.lean

Programs that are built from expressions are well formed.

In a well-formed program the parts of a node stand before it, and everything that a
node refers to is there.  Building an expression only adds to a program, and the
parts of a node are added before the node itself, so a program stays well formed
whether the building succeeds or stops at a malformed literal.

`Build.Sound` is the judgement for that: from a well-formed program, a step of
building leads to one that extends it, and the result, if there is one, satisfies a
condition in it.  It is building in lockstep, read on the diagonal: a program
corresponds to itself while it extends the one at the start, and what it has is alike
(`Program.growing`).
-/
import LazyExpr.Proofs.Building
import LazyExpr.Proofs.Reference

namespace LazyExpr

/-! ### Programs that grow -/

namespace Program

/-- A program has at least what another one has, in the same places. -/
structure Grows (p q : Program) : Prop where
  size : p.size ≤ q.size
  numbers : p.numbers.size ≤ q.numbers.size
  names : p.names.size ≤ q.names.size
  node? : ∀ {n : NodeId}, n.index < p.size → q.node? n = p.node? n
  number? : ∀ {a : NumberId}, a.index < p.numbers.size → q.number? a = p.number? a
  text? : ∀ {n : Name}, n.index < p.names.size → q.names.text? n = p.names.text? n

variable {p q r : Program}

theorem Grows.refl (p : Program) : p.Grows p :=
  ⟨Nat.le_refl _, Nat.le_refl _, Nat.le_refl _, fun _ => rfl, fun _ => rfl, fun _ => rfl⟩

theorem Grows.trans (h : p.Grows q) (h' : q.Grows r) : p.Grows r where
  size := Nat.le_trans h.size h'.size
  numbers := Nat.le_trans h.numbers h'.numbers
  names := Nat.le_trans h.names h'.names
  node? hn := (h'.node? (Nat.lt_of_lt_of_le hn h.size)).trans (h.node? hn)
  number? ha := (h'.number? (Nat.lt_of_lt_of_le ha h.numbers)).trans (h.number? ha)
  text? hn := (h'.text? (Nat.lt_of_lt_of_le hn h.names)).trans (h.text? hn)

theorem Grows.text (h : p.Grows q) {n : Name} (hn : n.index < p.names.size) :
    q.names.text n = p.names.text n := by
  rw [Names.text, Names.text, h.text? hn]

/-- What is pushed on an array changes nothing before it. -/
theorem getElem?_push_of_lt {α : Type} {xs : Array α} {x : α} {i : Nat} (h : i < xs.size) :
    (xs.push x)[i]? = xs[i]? := by
  rw [Array.getElem?_push, if_neg (Nat.ne_of_lt h)]

theorem grows_addName (p : Program) (text : String) : p.Grows (p.addName text).2 :=
  { Grows.refl p with
    names := p.names.size_intern_le text
    text? := fun hn => p.names.text?_intern_of_lt text hn }

theorem grows_addNumber (p : Program) (d : Decimal) : p.Grows (p.addNumber d).2 :=
  { Grows.refl p with
    numbers := by simp [addNumber]
    number? := fun ha => getElem?_push_of_lt ha }

theorem grows_addNode (p : Program) (n : Node) : p.Grows (p.addNode n).2 :=
  { Grows.refl p with
    size := by simp [addNode, size]
    node? := fun hn => getElem?_push_of_lt hn }

/-! ### Well-formed programs -/

/-- A reference leads to something in the program, if it is one into the
program. -/
def Has (p : Program) : Ref → Prop
  | .name n => n.index < p.names.size
  | .number a => a.index < p.numbers.size
  | .node n => n.index < p.size
  | .suspended n => n.index < p.size
  | _ => True

theorem Grows.has (h : p.Grows q) {x : Ref} (hx : p.Has x) : q.Has x := by
  cases x with
  | name n => exact Nat.lt_of_lt_of_le hx h.names
  | number a => exact Nat.lt_of_lt_of_le hx h.numbers
  | node n => exact Nat.lt_of_lt_of_le hx h.size
  | suspended n => exact Nat.lt_of_lt_of_le hx h.size
  | _ => trivial

/-- The parts of a node stand before it, and what it refers to is there.  The empty
name is always there. -/
structure WellFormed (p : Program) : Prop where
  children : ∀ {n a}, p.node? n = some a → ∀ m ∈ a.kind.children, m.index < n.index
  refs : ∀ {n a}, p.node? n = some a → ∀ r ∈ a.kind.refs, p.Has r
  empty : p.Has (.name .empty)

/-- A program is well formed and has what another one has. -/
structure Extends (p q : Program) : Prop extends p.Grows q where
  wellFormed : q.WellFormed

theorem Extends.refl (hp : p.WellFormed) : p.Extends p := ⟨.refl p, hp⟩

theorem Extends.trans (h : p.Extends q) (h' : q.Extends r) : p.Extends r :=
  ⟨h.toGrows.trans h'.toGrows, h'.wellFormed⟩

theorem Extends.lt (h : p.Extends q) {n : NodeId} (hn : n.index < p.size) : n.index < q.size :=
  Nat.lt_of_lt_of_le hn h.size

theorem Extends.has (h : p.Extends q) {x : Ref} (hx : p.Has x) : q.Has x := h.toGrows.has hx

theorem lt_of_node? {n : NodeId} {a : Node} (h : p.node? n = some a) : n.index < p.size :=
  (Array.getElem?_eq_some_iff.1 h).1

theorem node?_ne_none {n : NodeId} (hn : n.index < p.size) : p.node? n ≠ none := by
  rw [node?, Array.getElem?_eq_getElem hn]
  simp

theorem number?_ne_none {a : NumberId} (ha : a.index < p.numbers.size) : p.number? a ≠ none := by
  rw [number?, Array.getElem?_eq_getElem ha]
  simp

theorem wellFormed_empty : empty.WellFormed where
  children h := absurd (lt_of_node? h) (Nat.not_lt_zero _)
  refs h := absurd (lt_of_node? h) (Nat.not_lt_zero _)
  empty := Nat.zero_lt_one

/-- A program stays well formed when it grows by no node. -/
theorem WellFormed.of_grows (hp : p.WellFormed) (h : p.Grows q) (hsize : q.size = p.size) :
    q.WellFormed := by
  have hnode : ∀ {n a}, q.node? n = some a → p.node? n = some a := by
    intro n a ha
    have hlt : n.index < p.size := hsize ▸ lt_of_node? ha
    rw [← h.node? hlt]
    exact ha
  exact ⟨fun ha => hp.children (hnode ha), fun ha x hx => h.has (hp.refs (hnode ha) x hx),
    h.has hp.empty⟩

theorem extends_addName (hp : p.WellFormed) (text : String) : p.Extends (p.addName text).2 :=
  ⟨grows_addName p text, hp.of_grows (grows_addName p text) rfl⟩

theorem extends_addNumber (hp : p.WellFormed) (d : Decimal) : p.Extends (p.addNumber d).2 :=
  ⟨grows_addNumber p d, hp.of_grows (grows_addNumber p d) rfl⟩

/-- A node of a program that a node was added to is the new one, or was there. -/
theorem node?_addNode {b : Node} {n : NodeId} {a : Node} (h : (p.addNode b).2.node? n = some a) :
    (n.index = p.size ∧ a = b) ∨ p.node? n = some a := by
  rw [show (p.addNode b).2.node? n = (p.nodes.push b)[n.index]? from rfl,
    Array.getElem?_push] at h
  split at h
  · next e =>
    cases h
    exact .inl ⟨e, rfl⟩
  · exact .inr h

/-- A node may be added after its parts. -/
theorem extends_addNode (hp : p.WellFormed) {k : Kind} (span : Span)
    (hchildren : ∀ m ∈ k.children, m.index < p.size) (hrefs : ∀ x ∈ k.refs, p.Has x) :
    p.Extends (p.addNode ⟨k, span⟩).2 := by
  have hgrows := grows_addNode p ⟨k, span⟩
  refine ⟨hgrows, ?_, ?_, hgrows.has hp.empty⟩
  · intro n a h m hm
    rcases node?_addNode h with ⟨hn, rfl⟩ | h
    · rw [hn]
      exact hchildren m hm
    · exact hp.children h m hm
  · intro n a h x hx
    rcases node?_addNode h with ⟨-, rfl⟩ | h
    · exact hgrows.has (hrefs x hx)
    · exact hgrows.has (hp.refs h x hx)

/-! ### Order -/

/-- Every node stands after all nodes that it mentions. -/
def Ordered (p : Program) : Prop :=
  ∀ n a, p.node? n = some a → ∀ m ∈ a.kind.parts, m.index < n.index

theorem ordered_empty : empty.Ordered :=
  fun _ _ h => absurd (lt_of_node? h) (Nat.not_lt_zero _)

theorem Ordered.addNode (hp : p.Ordered) {k : Kind} (span : Span)
    (hchildren : ∀ m ∈ k.children, m.index < p.size) (hrefs : ∀ x ∈ k.refs, p.Has x) :
    (p.addNode ⟨k, span⟩).2.Ordered := by
  intro n a h m hm
  rcases node?_addNode h with ⟨hn, rfl⟩ | h
  · rw [hn]
    rcases List.mem_append.1 hm with hm | hm
    · exact hchildren m hm
    · obtain ⟨r, hr, hm⟩ := List.mem_filterMap.1 hm
      have hhas := hrefs r hr
      cases r with
      | node i =>
        cases hm
        exact hhas
      | suspended i =>
        cases hm
        exact hhas
      | _ => cases hm
  · exact hp n a h m hm

/-! ### Building on the diagonal -/

/-- A program that `p` has grown into, next to itself.  What it has is alike. -/
structure Grown (p : Program) (L : Likeness) (q q' : Program) : Prop where
  same : q = q'
  alike : L = .within q.Has
  extends_start : p.Extends q
  ordered : p.Ordered → q.Ordered

theorem Grown.step {L : Likeness} {q q' r : Program} (h : p.Grown L q q') (hr : q.Extends r)
    (ho : q.Ordered → r.Ordered) : L.Grows (.within r.Has) ∧ p.Grown (.within r.Has) r r := by
  rw [h.alike]
  exact ⟨Likeness.within_mono hr.has, rfl, rfl, h.extends_start.trans hr, fun hp => ho (h.ordered hp)⟩

/-- Building goes on to give programs that `p` has grown into. -/
def growing (p : Program) : Correspondence Program Program where
  rel := p.Grown
  add_name {L q _} t h := by
    obtain rfl := h.same
    obtain ⟨hM, hr⟩ := h.step (extends_addName h.extends_start.wellFormed t) id
    exact ⟨_, hM, hr, rfl, q.names.index_intern_lt t⟩
  add_number {L q _} d h := by
    obtain rfl := h.same
    obtain ⟨hM, hr⟩ := h.step (extends_addNumber h.extends_start.wellFormed d) id
    have hnew : q.numbers.size < (q.numbers.push d).size := by simp
    exact ⟨_, hM, hr, rfl, hnew⟩
  add_node {L q _ k _} span h hk := by
    obtain rfl := h.same
    rw [h.alike] at hk
    obtain ⟨rfl, hchildren, hrefs⟩ := Likeness.within_of_onKind hk
    obtain ⟨hM, hr⟩ := h.step (extends_addNode h.extends_start.wellFormed span hchildren hrefs)
      fun ho => ho.addNode span hchildren hrefs
    have hnew : q.nodes.size < (q.nodes.push ⟨k, span⟩).size := by simp
    exact ⟨_, hM, hr, ⟨rfl, hnew⟩, ⟨rfl, hnew⟩⟩

theorem grown_self (hp : p.WellFormed) : p.Grown (.within p.Has) p p :=
  ⟨rfl, rfl, .refl hp, id⟩

end Program

/-! ### Steps of building -/

namespace Build

variable {α : Type} {p : Program}

/-- From a well-formed program, a step extends it, and its result is as it should
be. -/
inductive Ends (p : Program) (Q : Program → α → Prop) :
    EStateM.Result Decimal.Error Program α → Prop
  | ok {a q} : p.Extends q → Q q a → Ends p Q (.ok a q)
  | error {e q} : p.Extends q → Ends p Q (.error e q)

def Sound (p : Program) (Q : Program → α → Prop) (x : Build Program α) : Prop := Ends p Q (x p)

/-- A step that agrees with itself is sound. -/
theorem sound_of_agree {A : Likeness → α → α → Prop} {Q : Program → α → Prop} {x : Build Program α}
    (h : p.growing.Agree (.within p.Has) p p A x x)
    (hQ : ∀ {q a b}, A (.within q.Has) a b → Q q a) : Sound p Q x := by
  unfold Correspondence.Agree at h
  unfold Sound
  generalize x p = r at h
  cases h with
  | ok _ hq ha =>
    rw [hq.alike] at ha
    exact .ok hq.extends_start (hQ ha)
  | error e _ hq => exact .error hq.extends_start

end Build

open Build in
theorem Expr.sound_buildAll {p : Program} (hp : p.WellFormed) (es : List Expr) :
    Sound p (fun q ns => ∀ n ∈ ns, n.index < q.size) (Expr.buildAll es) := by
  refine sound_of_agree (Expr.agree_buildAll (Program.grown_self hp) es) fun h => ?_
  have hnode := Correspondence.node_of_onBuilt h
  exact ((Likeness.forall₂_within fun _ _ => Iff.rfl).1 hnode).2

/-! ### The prelude -/

namespace Prelude

open Build

variable {p : Program}

theorem sound_functions (hp : p.WellFormed) :
    Sound p (fun q fs => ∀ f ∈ fs, ∀ x ∈ f.refs, q.Has x) functions :=
  sound_of_agree (Prelude.agree_functions (Program.grown_self hp)) fun h =>
    ((Likeness.forall₂_within fun _ _ => Likeness.onFunction_within).1 h).2

theorem find?_bindings {fs : List Function} {n : Name} {b : Binding}
    (h : (bindings fs).find? n = some b) : ∃ f ∈ fs, b.value = .function f := by
  have go : ∀ (fs : List Function) (bs : Bindings),
      (fs.foldl (fun bs f => bs.insert f.name ⟨.function f, .mutable⟩) bs).find? n = some b →
      bs.find? n = some b ∨ ∃ f ∈ fs, b.value = .function f := by
    intro fs
    induction fs with
    | nil => exact fun bs hb => .inl hb
    | cons f fs ih =>
      intro bs hb
      rcases ih _ hb with hb | ⟨g, hg, he⟩
      · rw [Bindings.find?_insert] at hb
        split at hb
        · cases hb
          exact .inr ⟨f, List.mem_cons_self, rfl⟩
        · exact .inl hb
      · exact .inr ⟨g, List.mem_cons_of_mem f hg, he⟩
  rcases go fs Bindings.empty h with h | h
  · cases h
  · exact h

/-- What the prelude binds are functions. -/
theorem find?_install {n : Name} {b : Binding} (h : (install p).2.find? n = some b) :
    ∃ f, b.value = .function f := by
  unfold install at h
  split at h
  · obtain ⟨f, -, hf⟩ := find?_bindings h
    exact ⟨f, hf⟩
  · cases h

/-- The prelude extends a program, and its bindings refer to what is there. -/
theorem install_extends (hp : p.WellFormed) :
    p.Extends (install p).1 ∧
      ∀ n b, (install p).2.find? n = some b → b.value.Within (install p).1.Has := by
  have h := sound_functions hp
  unfold Sound at h
  unfold install
  generalize functions p = r at h
  cases h with
  | ok hq hfs =>
    refine ⟨hq, fun n b hb => ?_⟩
    obtain ⟨f, hf, he⟩ := find?_bindings hb
    rw [he]
    rintro r ⟨⟩
    exact hfs f hf r ‹_›
  | error hq => exact ⟨hq, fun n b hb => nomatch hb⟩

end Prelude

end LazyExpr
