/-
LazyExpr/Proofs/Reading.lean

What is built can be read back.

Reading is monotone: a program that grows goes on to read every node as before, and a
node that is added after its parts is read as the expression of its parts.  From these
two facts, `Build.Matches` compares a step of building with what the expression resolves
to: both fail with the same error, or both succeed and the result of building is read
as the resolved expression.  The lemma for expressions follows the recursion of
`Expr.buildAt` and `Expr.resolveAt`.
-/
import LazyExpr.Proofs.Layout
import LazyExpr.Reading

namespace LazyExpr

/-! ### Partial answers -/

/-- What one answer has, another has too. -/
def Stays {α : Type} (x y : Option α) : Prop := ∀ a, x = some a → y = some a

section

variable {α β : Type}

theorem Stays.refl (x : Option α) : Stays x x := fun _ h => h

theorem Stays.bind {x y : Option α} {f g : α → Option β} (h : Stays x y)
    (hfg : ∀ a, Stays (f a) (g a)) : Stays (x >>= f) (y >>= g) := by
  intro b hb
  obtain ⟨a, ha, hb⟩ := Option.bind_eq_some_iff.1 hb
  exact Option.bind_eq_some_iff.2 ⟨a, h a ha, hfg a b hb⟩

theorem mapM_cons_eq_some {f : α → Option β} {a : α} {as : List α} {bs : List β} :
    (a :: as).mapM f = some bs ↔
      ∃ b, f a = some b ∧ ∃ cs, as.mapM f = some cs ∧ b :: cs = bs := by
  rw [List.mapM_cons]
  simp [Option.bind_eq_some_iff]

theorem stays_mapM {f g : α → Option β} (h : ∀ a, Stays (f a) (g a)) (as : List α) :
    Stays (as.mapM f) (as.mapM g) := by
  induction as with
  | nil => exact .refl _
  | cons a as ih =>
    rw [List.mapM_cons, List.mapM_cons]
    exact (h a).bind fun b => ih.bind fun bs => .refl _

theorem stays_getElem? {xs ys : Array α} {i : Nat} (h : i < xs.size → ys[i]? = xs[i]?) :
    Stays xs[i]? ys[i]? := by
  intro a ha
  rw [h (Array.getElem?_eq_some_iff.1 ha).1]
  exact ha

end

/-! ### Reading a program that grows -/

namespace Program

variable {p q : Program}

theorem Grows.stays_node (h : p.Grows q) (id : NodeId) : Stays (p.node? id) (q.node? id) :=
  stays_getElem? h.node?

theorem Grows.stays_number (h : p.Grows q) (id : NumberId) :
    Stays (p.number? id) (q.number? id) :=
  stays_getElem? h.number?

theorem Grows.stays_text (h : p.Grows q) (n : Name) :
    Stays (p.names.text? n) (q.names.text? n) :=
  stays_getElem? h.text?

theorem Grows.stays_variant (h : p.Grows q) (v : Variant) :
    Stays (p.readVariant v) (q.readVariant v) :=
  (h.stays_text v.name).bind fun _ => (stays_mapM h.stays_text v.fields).bind fun _ => .refl _

theorem Grows.stays_readKind (h : p.Grows q) {f g : NodeId → Option Expr}
    (hfg : ∀ id, Stays (f id) (g id)) (k : Kind) : Stays (p.readKind f k) (q.readKind g k) := by
  cases k with
  | number id => exact (h.stays_number id).bind fun _ => .refl _
  | bool b => exact .refl _
  | char c => exact .refl _
  | text content => exact (h.stays_text content).bind fun _ => .refl _
  | void => exact .refl _
  | ident name => exact (h.stays_text name).bind fun _ => .refl _
  | assign name value mutability =>
    exact (h.stays_text name).bind fun _ => (hfg value).bind fun _ => .refl _
  | seq statements result =>
    exact (stays_mapM hfg statements).bind fun _ => (hfg result).bind fun _ => .refl _
  | ifElse condition whenTrue whenFalse =>
    exact (hfg condition).bind fun _ => (hfg whenTrue).bind fun _ =>
      (hfg whenFalse).bind fun _ => .refl _
  | lambda name params body =>
    exact (h.stays_text name).bind fun _ => (stays_mapM h.stays_text params).bind fun _ =>
      (hfg body).bind fun _ => .refl _
  | call callee args =>
    exact (hfg callee).bind fun _ => (stays_mapM hfg args).bind fun _ => .refl _
  | binary op left right => exact (hfg left).bind fun _ => (hfg right).bind fun _ => .refl _
  | list items => exact (stays_mapM hfg items).bind fun _ => .refl _
  | index source position =>
    exact (hfg source).bind fun _ => (hfg position).bind fun _ => .refl _
  | indexAssign target position value =>
    exact (h.stays_text target).bind fun _ => (hfg position).bind fun _ =>
      (hfg value).bind fun _ => .refl _
  | field receiver label =>
    exact (hfg receiver).bind fun _ => (h.stays_text label).bind fun _ => .refl _
  | fieldAssign receiver label value =>
    exact (hfg receiver).bind fun _ => (h.stays_text label).bind fun _ =>
      (hfg value).bind fun _ => .refl _
  | declare type variants =>
    exact (h.stays_text type).bind fun _ => (stays_mapM h.stays_variant variants).bind fun _ =>
      .refl _
  | construct type variant fields =>
    have hfield : ∀ f' : Name × NodeId, Stays (p.readField f f') (q.readField g f') := fun f' =>
      (h.stays_text f'.1).bind fun _ => (hfg f'.2).bind fun _ => .refl _
    exact (h.stays_text type).bind fun _ => (h.stays_text variant).bind fun _ =>
      (stays_mapM hfield fields).bind fun _ => .refl _
  | intrinsic function args => exact (stays_mapM hfg args).bind fun _ => .refl _

/-- A node is read as before, in a program that has grown and from any greater
depth. -/
theorem Grows.stays_readExpr (h : p.Grows q) {m n : Nat} (hmn : m ≤ n) (id : NodeId) :
    Stays (p.readExpr m id) (q.readExpr n id) := by
  -- on the smaller depth: with none left nothing was read, and nothing has to stay
  induction m generalizing n id with
  | zero => exact fun _ ht => nomatch ht
  | succ m ih =>
    obtain ⟨n, rfl⟩ : ∃ k, n = k + 1 := ⟨n - 1, by omega⟩
    refine (h.stays_node id).bind fun a => ?_
    exact (h.stays_readKind (ih (by omega)) a.kind).bind fun _ => .refl _

theorem Grows.stays_expr (h : p.Grows q) (id : NodeId) : Stays (p.expr? id) (q.expr? id) :=
  h.stays_readExpr h.size id

/-- A node that is added after its parts is read as the expression of its parts. -/
theorem expr?_addNode {k : Kind} {t : Expr} (h : p.readKind p.expr? k = some t) (span : Span) :
    (p.addNode ⟨k, span⟩).2.expr? (p.addNode ⟨k, span⟩).1 = some (.located span t) := by
  have hgrows := p.grows_addNode ⟨k, span⟩
  have hnode : (p.addNode ⟨k, span⟩).2.node? ⟨p.size⟩ = some ⟨k, span⟩ := by
    simp [addNode, node?, size]
  have hkind := hgrows.stays_readKind (fun id => hgrows.stays_readExpr (Nat.le_refl p.size) id) k
  have hsize : (p.addNode ⟨k, span⟩).2.size = p.size + 1 := by simp [addNode, size]
  rw [expr?, hsize]
  show (p.addNode ⟨k, span⟩).2.readExpr (p.size + 1) ⟨p.size⟩ = _
  rw [readExpr, hnode, Option.bind_eq_bind, Option.bind_some, hkind t h]
  rfl

/-- Every node is an expression. -/
def Readable (p : Program) : Prop := ∀ id : NodeId, id.index < p.size → ∃ t, p.expr? id = some t

theorem readable_empty : empty.Readable := fun _ h => absurd h (Nat.not_lt_zero _)

theorem Readable.of_grows (hp : p.Readable) (h : p.Grows q) (hsize : q.size = p.size) :
    q.Readable := by
  intro id hid
  obtain ⟨t, ht⟩ := hp id (hsize ▸ hid)
  exact ⟨t, h.stays_expr id t ht⟩

theorem Readable.addNode (hp : p.Readable) {k : Kind} {t : Expr}
    (h : p.readKind p.expr? k = some t) (span : Span) : (p.addNode ⟨k, span⟩).2.Readable := by
  intro id hid
  have hsize : (p.addNode ⟨k, span⟩).2.size = p.size + 1 := by simp [Program.addNode, size]
  -- an older node, which is read as before, or the new one
  by_cases hlt : id.index < p.size
  · obtain ⟨t, ht⟩ := hp id hlt
    exact ⟨t, (p.grows_addNode ⟨k, span⟩).stays_expr id t ht⟩
  · obtain rfl : id = ⟨p.size⟩ := congrArg NodeId.mk (by omega : id.index = p.size)
    exact ⟨_, expr?_addNode h span⟩

end Program

/-! ### Storages that grow -/

namespace Storage

variable {σ : Type} [Storage σ] {a b c : σ}

theorem addNode_fst (a : σ) (n : Node) : (addNode a n).1 = ((program a).addNode n).1 :=
  congrArg Prod.fst (program_addNode a n)

theorem addNode_snd (a : σ) (n : Node) : program (addNode a n).2 = ((program a).addNode n).2 :=
  congrArg Prod.snd (program_addNode a n)

theorem addNumber_fst (a : σ) (d : Decimal) : (addNumber a d).1 = ((program a).addNumber d).1 :=
  congrArg Prod.fst (program_addNumber a d)

theorem addNumber_snd (a : σ) (d : Decimal) :
    program (addNumber a d).2 = ((program a).addNumber d).2 :=
  congrArg Prod.snd (program_addNumber a d)

theorem addName_fst (a : σ) (t : String) : (addName a t).1 = ((program a).addName t).1 :=
  congrArg Prod.fst (program_addName a t)

theorem addName_snd (a : σ) (t : String) : program (addName a t).2 = ((program a).addName t).2 :=
  congrArg Prod.snd (program_addName a t)

/-- One storage comes from another by adding to it, whatever is added. -/
inductive Later (a : σ) : σ → Prop
  | refl : Later a a
  | addNode {b : σ} (n : Node) : Later a b → Later a (addNode b n).2
  | addNumber {b : σ} (d : Decimal) : Later a b → Later a (addNumber b d).2
  | addName {b : σ} (t : String) : Later a b → Later a (addName b t).2

theorem Later.trans (h : Later a b) (h' : Later b c) : Later a c := by
  induction h' with
  | refl => exact h
  | addNode n _ ih => exact ih.addNode n
  | addNumber d _ ih => exact ih.addNumber d
  | addName t _ ih => exact ih.addName t

theorem Later.grows (h : Later a b) : (program a).Grows (program b) := by
  induction h with
  | refl => exact .refl _
  | addNode n _ ih =>
    rw [addNode_snd]
    exact ih.trans (Program.grows_addNode _ n)
  | addNumber d _ ih =>
    rw [addNumber_snd]
    exact ih.trans (Program.grows_addNumber _ d)
  | addName t _ ih =>
    rw [addName_snd]
    exact ih.trans (Program.grows_addName _ t)

/-- One storage comes from another by adding to it, and no node is added that is no
expression. -/
structure Leads (a b : σ) : Prop where
  later : Later a b
  readable : (program a).Readable → (program b).Readable

theorem Leads.refl (a : σ) : Leads a a := ⟨.refl, id⟩

theorem Leads.trans (h : Leads a b) (h' : Leads b c) : Leads a c :=
  ⟨h.later.trans h'.later, fun ha => h'.readable (h.readable ha)⟩

theorem leads_addName (a : σ) (t : String) : Leads a (addName a t).2 := by
  refine ⟨Later.refl.addName t, fun ha => ?_⟩
  rw [addName_snd]
  exact ha.of_grows (Program.grows_addName _ t) rfl

theorem leads_addNumber (a : σ) (d : Decimal) : Leads a (addNumber a d).2 := by
  refine ⟨Later.refl.addNumber d, fun ha => ?_⟩
  rw [addNumber_snd]
  exact ha.of_grows (Program.grows_addNumber _ d) rfl

theorem leads_addNode {k : Kind} {t : Expr}
    (h : (program a).readKind (program a).expr? k = some t) (span : Span) :
    Leads a (addNode a ⟨k, span⟩).2 := by
  refine ⟨Later.refl.addNode _, fun ha => ?_⟩
  rw [addNode_snd]
  exact ha.addNode h span

theorem expr?_addNode {k : Kind} {t : Expr}
    (h : (program a).readKind (program a).expr? k = some t) (span : Span) :
    (program (addNode a ⟨k, span⟩).2).expr? (addNode a ⟨k, span⟩).1 = some (.located span t) := by
  rw [addNode_fst, addNode_snd]
  exact Program.expr?_addNode h span

theorem Leads.expr (h : Leads a b) {id : NodeId} {t : Expr} (ht : (program a).expr? id = some t) :
    (program b).expr? id = some t :=
  h.later.grows.stays_expr id t ht

theorem Leads.exprs (h : Leads a b) {ids : List NodeId} {ts : List Expr}
    (hts : ids.mapM (program a).expr? = some ts) : ids.mapM (program b).expr? = some ts :=
  stays_mapM h.later.grows.stays_expr ids ts hts

theorem Leads.text (h : Leads a b) {n : Name} {t : String}
    (ht : (program a).names.text? n = some t) : (program b).names.text? n = some t :=
  h.later.grows.stays_text n t ht

theorem Leads.texts (h : Leads a b) {ns : List Name} {ts : List String}
    (hts : ns.mapM (program a).names.text? = some ts) :
    ns.mapM (program b).names.text? = some ts :=
  stays_mapM h.later.grows.stays_text ns ts hts

end Storage

/-! ### Building and resolving -/

namespace Build

open Storage

variable {σ : Type} [Storage σ] {α β γ δ : Type} {a : σ}

/-- What building ended in is what resolving ended in: the same error, or results that
belong together in the storage reached. -/
inductive Matched (a : σ) (R : Program → α → β → Prop) :
    EStateM.Result Decimal.Error σ α → Except Decimal.Error β → Prop
  | ok {b v w} : Leads a b → R (program b) v w → Matched a R (.ok v b) (.ok w)
  | error {e b} : Leads a b → Matched a R (.error e b) (.error e)

def Matches (a : σ) (R : Program → α → β → Prop) (x : Build σ α) (y : Except Decimal.Error β) :
    Prop :=
  Matched a R (x a) y

variable {R : Program → α → β → Prop} {S : Program → γ → δ → Prop}

theorem Matches.pure {v : α} {w : β} (h : R (program a) v w) :
    Matches a R (pure v) (pure w) :=
  .ok (.refl a) h

theorem Matches.bind {x : Build σ α} {y : Except Decimal.Error β} {f : α → Build σ γ}
    {g : β → Except Decimal.Error δ} (hx : Matches a R x y)
    (hf : ∀ b v w, Leads a b → R (program b) v w → Matches b S (f v) (g w)) :
    Matches a S (x >>= f) (y >>= g) := by
  show Matched a S (EStateM.bind x f a) (Except.bind y g)
  unfold Matches at hx
  unfold EStateM.bind
  generalize x a = r at hx
  cases hx with
  | @ok b v w hb hR =>
    have hr := hf b v w hb hR
    show Matched a S (f v b) (g w)
    unfold Matches at hr
    generalize f v b = r', g w = y' at hr
    cases hr with
    | ok hc hS => exact .ok (hb.trans hc) hS
    | error hc => exact .error (hb.trans hc)
  -- both sides stop here with one error, and neither goes on
  | error hb => exact .error hb

/-! ### Steps that cannot fail -/

/-- A step of building succeeds, and its result is as it should be. -/
def Yields (a : σ) (Q : Program → α → Prop) (x : Build σ α) : Prop :=
  ∃ v b, x a = .ok v b ∧ Leads a b ∧ Q (program b) v

variable {Q : Program → α → Prop}

theorem Yields.matches {x : Build σ α} {w : β} (h : Yields a (fun p v => R p v w) x) :
    Matches a R x (Pure.pure w) := by
  obtain ⟨v, b, hx, hb, hR⟩ := h
  unfold Matches
  rw [hx]
  exact .ok hb hR

/-- A step of building that has no counterpart when an expression is resolved. -/
theorem Yields.step {x : Build σ α} {f : α → Build σ γ} {y : Except Decimal.Error δ}
    (hx : Yields a Q x) (hf : ∀ b v, Leads a b → Q (program b) v → Matches b S (f v) y) :
    Matches a S (x >>= f) y := by
  have hx : Matches a (fun p v (_ : Unit) => Q p v) x (Pure.pure ()) := hx.matches
  exact hx.bind (g := fun _ => y) fun b v _ hb hQ => hf b v hb hQ

theorem Yields.bind {x : Build σ α} {f : α → Build σ γ} {P : Program → γ → Prop}
    (hx : Yields a Q x) (hf : ∀ b v, Leads a b → Q (program b) v → Yields b P (f v)) :
    Yields a P (x >>= f) := by
  obtain ⟨v, b, hx, hb, hQ⟩ := hx
  obtain ⟨w, c, hw, hc, hP⟩ := hf b v hb hQ
  refine ⟨w, c, ?_, hb.trans hc, hP⟩
  show EStateM.bind x f a = _
  rw [EStateM.bind, hx]
  exact hw

/-- Steps one after another, when what each of them found stays. -/
theorem yields_mapM {read : Program → α → Option β} {f : β → Build σ α}
    (hread : ∀ {p q : Program} (v : α), p.Grows q → Stays (read p v) (read q v))
    (hf : ∀ (a : σ) (w : β), Yields a (fun p v => read p v = some w) (f w)) (ws : List β) :
    Yields a (fun p vs => vs.mapM (read p) = some ws) (ws.mapM f) := by
  induction ws generalizing a with
  | nil => exact ⟨[], a, rfl, .refl a, rfl⟩
  | cons w ws ih =>
    rw [List.mapM_cons]
    refine (hf a w).bind fun b v hb hv => ?_
    refine ih.bind fun c vs hc hvs => ?_
    have hv' := hread v hc.later.grows w hv
    exact ⟨v :: vs, c, rfl, .refl c, mapM_cons_eq_some.2 ⟨w, hv', ws, hvs, rfl⟩⟩

theorem yields_name (a : σ) (t : String) :
    Yields a (fun p n => p.names.text? n = some t) (Build.name t) := by
  refine ⟨_, _, rfl, leads_addName a t, ?_⟩
  show (program (addName a t).2).names.text? (addName a t).1 = some t
  rw [addName_fst, addName_snd]
  exact (program a).names.text?_intern t

theorem yields_names (a : σ) (ts : List String) :
    Yields a (fun p ns => ns.mapM p.names.text? = some ts) (Build.names ts) :=
  yields_mapM (fun n h => h.stays_text n) yields_name ts

theorem yields_variant (a : σ) (w : String × List String) :
    Yields a (fun p v => p.readVariant v = some w) (Build.variant w) := by
  refine (yields_name a w.1).bind fun b n hb hn => ?_
  refine (yields_names b w.2).bind fun c ns hc hns => ?_
  refine ⟨⟨n, ns⟩, c, rfl, .refl c, ?_⟩
  show (program c).readVariant ⟨n, ns⟩ = some w
  rw [Program.readVariant, hc.text hn, hns]
  rfl

theorem yields_variants (a : σ) (ws : List (String × List String)) :
    Yields a (fun p vs => vs.mapM p.readVariant = some ws) (ws.mapM Build.variant) :=
  yields_mapM (fun v h => h.stays_variant v) yields_variant ws

theorem yields_number (a : σ) (d : Decimal) :
    Yields a (fun p id => p.number? id = some d) (Build.number d) := by
  refine ⟨_, _, rfl, leads_addNumber a d, ?_⟩
  show (program (addNumber a d).2).number? (addNumber a d).1 = some d
  rw [addNumber_fst, addNumber_snd]
  simp [Program.addNumber, Program.number?]

/-- The expression of a node is the one that was resolved. -/
abbrev Reads (p : Program) (id : NodeId) (t : Expr) : Prop := p.expr? id = some t

theorem yields_node {k : Kind} {t : Expr} (span : Span)
    (h : (program a).readKind (program a).expr? k = some t) :
    Yields a (fun p id => Reads p id (.located span t)) (Build.node span k) :=
  ⟨_, _, rfl, leads_addNode h span, expr?_addNode h span⟩

theorem yields_decimal (a : σ) (span : Span) (d : Decimal) :
    Yields a (fun p id => Reads p id (.located span (.decimal d))) (Build.decimal span d) := by
  refine (yields_number a d).bind fun b id hb hid => yields_node span ?_
  rw [Program.readKind, hid]
  rfl

/-- The node of a kind whose parts have been read. -/
theorem matches_node {k : Kind} {t : Expr} (span : Span)
    (h : (program a).readKind (program a).expr? k = some t) :
    Matches a Reads (Build.node span k) (Pure.pure (.located span t)) :=
  (yields_node span h).matches

end Build

/-! ### Expressions -/

section

open Build Storage Program

variable {σ : Type} [Storage σ]

/-- Names and expressions that were read apart are read together as fields. -/
theorem Program.mapM_readField {p : Program} {ns : List Name} {ids : List NodeId}
    {fs : List (String × Expr)} (hns : ns.mapM p.names.text? = some (fs.map (·.1)))
    (hids : ids.mapM p.expr? = some (fs.map (·.2))) :
    (ns.zip ids).mapM (p.readField p.expr?) = some fs := by
  induction ns generalizing ids fs with
  | nil =>
    obtain rfl : fs = [] := by simpa using hns.symm
    rfl
  | cons n ns ih =>
    obtain ⟨t, ht, ts, hts, hfs⟩ := mapM_cons_eq_some.1 hns
    obtain ⟨f, fs, rfl, rfl, rfl⟩ := List.map_eq_cons_iff.1 hfs.symm
    cases ids with
    | nil => simp at hids
    | cons id ids =>
      obtain ⟨e, he, es, hes, hvalues⟩ := mapM_cons_eq_some.1 hids
      obtain ⟨rfl, rfl⟩ := List.cons.inj hvalues
      refine mapM_cons_eq_some.2 ⟨f, ?_, fs, ih hts hes, rfl⟩
      simp [readField, ht, he]

mutual

theorem Expr.matches_buildAt (a : σ) (span : Span) :
    (e : Expr) → Matches a Reads (e.buildAt span) (e.resolveAt span)
  | .numeral literal => by
    rw [Expr.buildAt, Expr.resolveAt]
    cases Decimal.ofText literal with
    | ok d => exact (yields_decimal a span d).matches
    | error e => exact .error (.refl a)
  | .decimal d => by
    rw [Expr.buildAt, Expr.resolveAt]
    exact (yields_decimal a span d).matches
  | .integer n => by
    rw [Expr.buildAt, Expr.resolveAt]
    exact (yields_decimal a span _).matches
  | .bool b => by
    rw [Expr.buildAt, Expr.resolveAt]
    exact matches_node span rfl
  | .char c => by
    rw [Expr.buildAt, Expr.resolveAt]
    exact matches_node span rfl
  | .text content => by
    rw [Expr.buildAt, Expr.resolveAt]
    refine (yields_name a content).step fun b n hb hn => ?_
    exact matches_node span (by simp [readKind, hn])
  | .void => by
    rw [Expr.buildAt, Expr.resolveAt]
    exact matches_node span rfl
  | .ident name => by
    rw [Expr.buildAt, Expr.resolveAt]
    refine (yields_name a name).step fun b n hb hn => ?_
    exact matches_node span (by simp [readKind, hn])
  | .assign m name value => by
    rw [Expr.buildAt, Expr.resolveAt]
    refine (Expr.matches_buildAt a _ value).bind fun b v t hb hv => ?_
    refine (yields_name b name).step fun c n hc hn => ?_
    exact matches_node span (by simp [readKind, hn, hc.expr hv])
  | .seq statements result => by
    rw [Expr.buildAt, Expr.resolveAt]
    refine (Expr.matches_buildAll a statements).bind fun b ss ts hb hss => ?_
    refine (Expr.matches_buildAt b _ result).bind fun c r t hc hr => ?_
    exact matches_node span (by simp [readKind, hc.exprs hss, hr])
  | .ifElse x y z => by
    rw [Expr.buildAt, Expr.resolveAt]
    refine (Expr.matches_buildAt a _ x).bind fun b u t hb hu => ?_
    refine (Expr.matches_buildAt b _ y).bind fun c v t' hc hv => ?_
    refine (Expr.matches_buildAt c _ z).bind fun d w t'' hd hw => ?_
    exact matches_node span (by simp [readKind, (hc.trans hd).expr hu, hd.expr hv, hw])
  | .lambda name params body => by
    rw [Expr.buildAt, Expr.resolveAt]
    refine (Expr.matches_buildAt a _ body).bind fun b i t hb hi => ?_
    refine (yields_name b name).step fun c n hc hn => ?_
    refine (yields_names c params).step fun d ps hd hps => ?_
    exact matches_node span (by simp [readKind, hd.text hn, hps, (hc.trans hd).expr hi])
  | .call callee args => by
    rw [Expr.buildAt, Expr.resolveAt]
    refine (Expr.matches_buildAt a _ callee).bind fun b f t hb hf => ?_
    refine (Expr.matches_buildAll b args).bind fun c as ts hc has => ?_
    exact matches_node span (by simp [readKind, hc.expr hf, has])
  | .callNamed name args => by
    rw [Expr.buildAt, Expr.resolveAt]
    refine (Expr.matches_buildAll a args).bind fun b as ts hb has => ?_
    refine (yields_name b name).step fun c n hc hn => ?_
    have hident : (program c).readKind (program c).expr? (.ident n) = some (.ident name) := by
      simp [readKind, hn]
    refine (yields_node span hident).step fun d f hd hf => ?_
    exact matches_node span (by simp [readKind, hf, (hc.trans hd).exprs has])
  | .binary op x y => by
    rw [Expr.buildAt, Expr.resolveAt]
    refine (Expr.matches_buildAt a _ x).bind fun b u t hb hu => ?_
    refine (Expr.matches_buildAt b _ y).bind fun c v t' hc hv => ?_
    exact matches_node span (by simp [readKind, hc.expr hu, hv])
  | .list items => by
    rw [Expr.buildAt, Expr.resolveAt]
    refine (Expr.matches_buildAll a items).bind fun b is ts hb his => ?_
    exact matches_node span (by simp [readKind, his])
  | .index x i => by
    rw [Expr.buildAt, Expr.resolveAt]
    refine (Expr.matches_buildAt a _ x).bind fun b u t hb hu => ?_
    refine (Expr.matches_buildAt b _ i).bind fun c v t' hc hv => ?_
    exact matches_node span (by simp [readKind, hc.expr hu, hv])
  | .indexAssign target i value => by
    rw [Expr.buildAt, Expr.resolveAt]
    refine (Expr.matches_buildAt a _ i).bind fun b u t hb hu => ?_
    refine (Expr.matches_buildAt b _ value).bind fun c v t' hc hv => ?_
    refine (yields_name c target).step fun d n hd hn => ?_
    exact matches_node span (by simp [readKind, hn, (hc.trans hd).expr hu, hd.expr hv])
  | .field r label => by
    rw [Expr.buildAt, Expr.resolveAt]
    refine (Expr.matches_buildAt a _ r).bind fun b u t hb hu => ?_
    refine (yields_name b label).step fun c n hc hn => ?_
    exact matches_node span (by simp [readKind, hc.expr hu, hn])
  | .fieldAssign r label value => by
    rw [Expr.buildAt, Expr.resolveAt]
    refine (Expr.matches_buildAt a _ r).bind fun b u t hb hu => ?_
    refine (Expr.matches_buildAt b _ value).bind fun c v t' hc hv => ?_
    refine (yields_name c label).step fun d n hd hn => ?_
    exact matches_node span (by simp [readKind, (hc.trans hd).expr hu, hn, hd.expr hv])
  | .declare type variants => by
    rw [Expr.buildAt, Expr.resolveAt]
    refine (yields_name a type).step fun b n hb hn => ?_
    refine (yields_variants b variants).step fun c vs hc hvs => ?_
    exact matches_node span (by simp [readKind, hc.text hn, hvs])
  | .construct type variant fields => by
    rw [Expr.buildAt, Expr.resolveAt]
    refine (Expr.matches_buildFields a fields).bind fun b ids fs hb hfs => ?_
    refine (yields_name b type).step fun c t hc ht => ?_
    refine (yields_name c variant).step fun d v hd hv => ?_
    refine (yields_names d _).step fun e ns he hns => ?_
    -- the values were built before the names, from the same list of fields
    rw [← hfs.1] at hns
    have hfields := mapM_readField hns (((hc.trans hd).trans he).exprs hfs.2)
    exact matches_node span (by simp [readKind, (hd.trans he).text ht, he.text hv, hfields])
  | .intrinsic f args => by
    rw [Expr.buildAt, Expr.resolveAt]
    refine (Expr.matches_buildAll a args).bind fun b as ts hb has => ?_
    exact matches_node span (by simp [readKind, has])
  | .located inner e => by
    rw [Expr.buildAt, Expr.resolveAt]
    exact Expr.matches_buildAt a inner e

theorem Expr.matches_buildAll (a : σ) :
    (es : List Expr) → Matches a (fun p ids ts => ids.mapM p.expr? = some ts)
      (Expr.buildAll es) (Expr.resolveAll es)
  | [] => by
    rw [Expr.buildAll, Expr.resolveAll]
    exact .pure rfl
  | e :: es => by
    rw [Expr.buildAll, Expr.resolveAll]
    refine (Expr.matches_buildAt a _ e).bind fun b id t hb hid => ?_
    refine (Expr.matches_buildAll b es).bind fun c ids ts hc hids => ?_
    exact .pure (mapM_cons_eq_some.2 ⟨t, hc.expr hid, ts, hids, rfl⟩)

theorem Expr.matches_buildFields (a : σ) :
    (fs : List (String × Expr)) →
      Matches a (fun p ids ts => ts.map (·.1) = fs.map (·.1) ∧
          ids.mapM p.expr? = some (ts.map (·.2)))
        (Expr.buildFields fs) (Expr.resolveFields fs)
  | [] => by
    rw [Expr.buildFields, Expr.resolveFields]
    exact .pure ⟨rfl, rfl⟩
  | (name, e) :: fs => by
    rw [Expr.buildFields, Expr.resolveFields]
    refine (Expr.matches_buildAt a _ e).bind fun b id t hb hid => ?_
    refine (Expr.matches_buildFields b fs).bind fun c ids ts hc hids => ?_
    exact .pure ⟨congrArg (name :: ·) hids.1,
      mapM_cons_eq_some.2 ⟨t, hc.expr hid, _, hids.2, rfl⟩⟩

end

end

end LazyExpr
