/-
LazyExpr/Proofs/Building.lean

Building in lockstep.

The same expressions are built in two storages.  Each side numbers nodes, decimals and
names by itself, so a likeness says which of one side stand for which of the other; it
grows with every step, since what is added on both sides at once is alike from then on.
A correspondence is a relation between storages that each of the three ways to add to
them respects, and `Expr.agree_buildAt` says that whole expressions respect it.

With equality as the likeness, storages correspond when they stand for the same
program; on the diagonal, a correspondence is an invariant of building.
-/
import LazyExpr.Proofs.Likeness
import LazyExpr.Session

namespace LazyExpr

open Storage

/-- A relation between storages that building respects. -/
structure Correspondence (σ σ' : Type) [Storage σ] [Storage σ'] where
  rel : Likeness → σ → σ' → Prop
  add_name : ∀ {L a a'} (t : String), rel L a a' →
    ∃ M, L.Grows M ∧ rel M (addName a t).2 (addName a' t).2 ∧
      M.name (addName a t).1 (addName a' t).1
  add_number : ∀ {L a a'} (d : Decimal), rel L a a' →
    ∃ M, L.Grows M ∧ rel M (addNumber a d).2 (addNumber a' d).2 ∧
      M.number (addNumber a d).1 (addNumber a' d).1
  add_node : ∀ {L a a' k k'} (span : Span), rel L a a' → L.OnKind L.node k k' →
    ∃ M, L.Grows M ∧ rel M (addNode a ⟨k, span⟩).2 (addNode a' ⟨k', span⟩).2 ∧
      M.node (addNode a ⟨k, span⟩).1 (addNode a' ⟨k', span⟩).1 ∧
      M.suspended (addNode a ⟨k, span⟩).1 (addNode a' ⟨k', span⟩).1

namespace Correspondence

variable {σ σ' : Type} [Storage σ] [Storage σ'] (C : Correspondence σ σ')
variable {α β γ δ : Type}

/-- Two steps of building end alike, in storages that correspond again. -/
inductive Ends (L : Likeness) (A : Likeness → α → β → Prop) :
    EStateM.Result Decimal.Error σ α → EStateM.Result Decimal.Error σ' β → Prop
  | ok {M a a' x y} : L.Grows M → C.rel M a a' → A M x y → Ends L A (.ok x a) (.ok y a')
  | error {M a a'} (e : Decimal.Error) : L.Grows M → C.rel M a a' →
      Ends L A (.error e a) (.error e a')

/-- From storages that correspond, two steps of building end alike. -/
def Agree (L : Likeness) (a : σ) (a' : σ') (A : Likeness → α → β → Prop) (x : Build σ α)
    (y : Build σ' β) : Prop := C.Ends L A (x a) (y a')

variable {C} {L M : Likeness} {a : σ} {a' : σ'}
variable {A : Likeness → α → β → Prop} {B : Likeness → γ → δ → Prop}

/-! ### Rules -/

theorem Ends.weaken {r : EStateM.Result Decimal.Error σ α} {r' : EStateM.Result Decimal.Error σ' β}
    (h : L.Grows M) (hr : C.Ends M A r r') : C.Ends L A r r' := by
  cases hr with
  | ok hM ha hA => exact .ok (h.trans hM) ha hA
  | error e hM ha => exact .error e (h.trans hM) ha

theorem Agree.pure (ha : C.rel L a a') {x : α} {y : β} (h : A L x y) :
    C.Agree L a a' A (pure x) (pure y) :=
  .ok (.refl L) ha h

theorem Agree.bind {x : Build σ α} {y : Build σ' β} {f : α → Build σ γ} {g : β → Build σ' δ}
    (hx : C.Agree L a a' A x y)
    (hf : ∀ {M b b'} u v, L.Grows M → C.rel M b b' → A M u v → C.Agree M b b' B (f u) (g v)) :
    C.Agree L a a' B (x >>= f) (y >>= g) := by
  show C.Ends L B (EStateM.bind x f a) (EStateM.bind y g a')
  unfold Agree at hx
  unfold EStateM.bind
  generalize x a = r, y a' = r' at hx
  cases hx with
  | ok hM hb huv => exact .weaken hM (hf _ _ hM hb huv)
  | error e hM hb => exact .error e hM hb

/-- What is made of the members of a list is alike, if it goes on to be while more is
made. -/
theorem Agree.mapM {ε : Type} {S : Likeness → γ → δ → Prop} {f : ε → Build σ γ} {g : ε → Build σ' δ}
    (hS : ∀ {L M c d}, L.Grows M → S L c d → S M c d)
    (hf : ∀ {M b b'} x, L.Grows M → C.rel M b b' → C.Agree M b b' S (f x) (g x))
    (ha : C.rel L a a') (xs : List ε) :
    C.Agree L a a' (fun L => List.Forall₂ (S L)) (xs.mapM f) (xs.mapM g) := by
  have go : ∀ {M b b'}, L.Grows M → C.rel M b b' →
      C.Agree M b b' (fun L => List.Forall₂ (S L)) (xs.mapM f) (xs.mapM g) := by
    induction xs with
    | nil => exact fun _ hb => .pure hb .nil
    | cons x xs ih =>
      intro M b b' hM hb
      rw [List.mapM_cons, List.mapM_cons]
      refine (hf x hM hb).bind fun c d g₁ h₁ hcd => ?_
      refine (ih (hM.trans g₁) h₁).bind fun cs ds g₂ h₂ hcds => ?_
      exact .pure h₂ (.cons (hS g₂ hcd) hcds)
  exact go (.refl L) ha

/-! ### Steps -/

/-- Nodes that were built may be evaluated, and suspended. -/
def OnBuilt (L : Likeness) (n n' : NodeId) : Prop := L.node n n' ∧ L.suspended n n'

theorem OnBuilt.grow {n n' : NodeId} (h : L.Grows M) (e : OnBuilt L n n') : OnBuilt M n n' :=
  ⟨h.node e.1, h.suspended e.2⟩

theorem onBuilt_grow {ns ns' : List NodeId} (h : L.Grows M)
    (e : List.Forall₂ (OnBuilt L) ns ns') : List.Forall₂ (OnBuilt M) ns ns' :=
  e.imp fun _ _ => .grow h

theorem node_of_onBuilt {ns ns' : List NodeId} (e : List.Forall₂ (OnBuilt L) ns ns') :
    List.Forall₂ L.node ns ns' :=
  e.imp fun _ _ => And.left

theorem agree_name (ha : C.rel L a a') (t : String) :
    C.Agree L a a' (fun L => L.name) (Build.name t) (Build.name t) := by
  obtain ⟨M, hM, hb, hn⟩ := C.add_name t ha
  exact .ok hM hb hn

theorem agree_names (ha : C.rel L a a') (ts : List String) :
    C.Agree L a a' (fun L => List.Forall₂ L.name) (Build.names ts) (Build.names ts) :=
  Agree.mapM (S := fun L => L.name) (fun h hn => h.name hn) (fun t _ hb => agree_name hb t) ha ts

theorem agree_variants (ha : C.rel L a a') (vs : List (String × List String)) :
    C.Agree L a a' (fun L => List.Forall₂ L.OnVariant) (vs.mapM Build.variant)
      (vs.mapM Build.variant) := by
  refine Agree.mapM (fun h v => ⟨h.name v.name, h.onNames v.fields⟩) (fun v _ h₀ => ?_) ha vs
  refine (agree_name h₀ v.1).bind fun n n' _ h₁ hn => ?_
  refine (agree_names h₁ v.2).bind fun fs fs' g₂ h₂ hfs => ?_
  exact .pure h₂ ⟨g₂.name hn, hfs⟩

theorem agree_node (ha : C.rel L a a') (span : Span) {k k' : Kind} (hk : L.OnKind L.node k k') :
    C.Agree L a a' OnBuilt (Build.node span k) (Build.node span k') := by
  obtain ⟨M, hM, hb, hn⟩ := C.add_node span ha hk
  exact .ok hM hb hn

theorem agree_decimal (ha : C.rel L a a') (span : Span) (d : Decimal) :
    C.Agree L a a' OnBuilt (Build.decimal span d) (Build.decimal span d) := by
  obtain ⟨M, hM, hb, hn⟩ := C.add_number d ha
  have hnumber : C.Agree L a a' (fun L => L.number) (Build.number d) (Build.number d) := .ok hM hb hn
  exact hnumber.bind fun _ _ _ hb hn => agree_node hb span (.number hn)

/-- The fields of a constructor, their names and their values. -/
theorem forall₂_zip {ns ns' : List Name} {vs vs' : List NodeId}
    (hns : List.Forall₂ L.name ns ns') (hvs : List.Forall₂ (OnBuilt L) vs vs') :
    List.Forall₂ L.OnInit (ns.zip vs) (ns'.zip vs') := by
  induction hns generalizing vs vs' with
  | nil => exact .nil
  | cons hn _ ih =>
    cases hvs with
    | nil => exact .nil
    | cons hv hvs => exact .cons ⟨hn, hv.2⟩ (ih hvs)

end Correspondence

/-! ### Expressions -/

section

open Correspondence

variable {σ σ' : Type} [Storage σ] [Storage σ'] {C : Correspondence σ σ'}

mutual

theorem Expr.agree_buildAt {L : Likeness} {a : σ} {a' : σ'} (ha : C.rel L a a') (span : Span) :
    (e : Expr) → C.Agree L a a' OnBuilt (e.buildAt span) (e.buildAt span)
  | .numeral literal => by
    rw [Expr.buildAt, Expr.buildAt]
    split
    · exact agree_decimal ha span _
    · exact .error _ (.refl L) ha
  | .decimal d => by
    rw [Expr.buildAt, Expr.buildAt]
    exact agree_decimal ha span d
  | .integer n => by
    rw [Expr.buildAt, Expr.buildAt]
    exact agree_decimal ha span _
  | .bool b => by
    rw [Expr.buildAt, Expr.buildAt]
    exact agree_node ha span (.bool b)
  | .char c => by
    rw [Expr.buildAt, Expr.buildAt]
    exact agree_node ha span (.char c)
  | .text content => by
    rw [Expr.buildAt, Expr.buildAt]
    exact (agree_name ha content).bind fun _ _ _ hb hn => agree_node hb span (.text hn)
  | .void => by
    rw [Expr.buildAt, Expr.buildAt]
    exact agree_node ha span .void
  | .ident name => by
    rw [Expr.buildAt, Expr.buildAt]
    exact (agree_name ha name).bind fun _ _ _ hb hn => agree_node hb span (.ident hn)
  | .assign m name value => by
    rw [Expr.buildAt, Expr.buildAt]
    refine (agree_buildAt ha _ value).bind fun v v' _ h₁ hv => ?_
    refine (agree_name h₁ name).bind fun n n' g₂ h₂ hn => ?_
    exact agree_node h₂ span (.assign m hn (hv.grow g₂).1)
  | .seq statements result => by
    rw [Expr.buildAt, Expr.buildAt]
    refine (agree_buildAll ha statements).bind fun ss ss' _ h₁ hss => ?_
    refine (agree_buildAt h₁ _ result).bind fun r r' g₂ h₂ hr => ?_
    exact agree_node h₂ span (.seq (node_of_onBuilt (onBuilt_grow g₂ hss)) hr.1)
  | .ifElse x y z => by
    rw [Expr.buildAt, Expr.buildAt]
    refine (agree_buildAt ha _ x).bind fun i i' _ h₁ hi => ?_
    refine (agree_buildAt h₁ _ y).bind fun j j' g₂ h₂ hj => ?_
    refine (agree_buildAt h₂ _ z).bind fun l l' g₃ h₃ hl => ?_
    exact agree_node h₃ span (.ifElse (hi.grow (g₂.trans g₃)).1 (hj.grow g₃).1 hl.1)
  | .lambda name params body => by
    rw [Expr.buildAt, Expr.buildAt]
    refine (agree_buildAt ha _ body).bind fun b b' _ h₁ hb => ?_
    refine (agree_name h₁ name).bind fun n n' g₂ h₂ hn => ?_
    refine (agree_names h₂ params).bind fun ps ps' g₃ h₃ hps => ?_
    exact agree_node h₃ span (.lambda ⟨g₃.name hn, hps, (hb.grow (g₂.trans g₃)).1⟩)
  | .call callee args => by
    rw [Expr.buildAt, Expr.buildAt]
    refine (agree_buildAt ha _ callee).bind fun f f' _ h₁ hf => ?_
    refine (agree_buildAll h₁ args).bind fun as as' g₂ h₂ has => ?_
    exact agree_node h₂ span (.call (hf.grow g₂).1 (node_of_onBuilt has))
  | .callNamed name args => by
    rw [Expr.buildAt, Expr.buildAt]
    refine (agree_buildAll ha args).bind fun as as' _ h₁ has => ?_
    refine (agree_name h₁ name).bind fun n n' g₂ h₂ hn => ?_
    refine (agree_node h₂ span (.ident hn)).bind fun f f' g₃ h₃ hf => ?_
    exact agree_node h₃ span (.call hf.1 (node_of_onBuilt (onBuilt_grow (g₂.trans g₃) has)))
  | .binary op x y => by
    rw [Expr.buildAt, Expr.buildAt]
    refine (agree_buildAt ha _ x).bind fun i i' _ h₁ hi => ?_
    refine (agree_buildAt h₁ _ y).bind fun j j' g₂ h₂ hj => ?_
    exact agree_node h₂ span (.binary op (hi.grow g₂).1 hj.1)
  | .list items => by
    rw [Expr.buildAt, Expr.buildAt]
    refine (agree_buildAll ha items).bind fun is is' _ h₁ his => ?_
    exact agree_node h₁ span (.list (his.imp fun _ _ => And.right))
  | .index x y => by
    rw [Expr.buildAt, Expr.buildAt]
    refine (agree_buildAt ha _ x).bind fun i i' _ h₁ hi => ?_
    refine (agree_buildAt h₁ _ y).bind fun j j' g₂ h₂ hj => ?_
    exact agree_node h₂ span (.index (hi.grow g₂).1 hj.1)
  | .indexAssign target x y => by
    rw [Expr.buildAt, Expr.buildAt]
    refine (agree_buildAt ha _ x).bind fun i i' _ h₁ hi => ?_
    refine (agree_buildAt h₁ _ y).bind fun j j' g₂ h₂ hj => ?_
    refine (agree_name h₂ target).bind fun n n' g₃ h₃ hn => ?_
    exact agree_node h₃ span (.indexAssign hn (hi.grow (g₂.trans g₃)).1 (hj.grow g₃).1)
  | .field x label => by
    rw [Expr.buildAt, Expr.buildAt]
    refine (agree_buildAt ha _ x).bind fun i i' _ h₁ hi => ?_
    refine (agree_name h₁ label).bind fun n n' g₂ h₂ hn => ?_
    exact agree_node h₂ span (.field (hi.grow g₂).1 hn)
  | .fieldAssign x label y => by
    rw [Expr.buildAt, Expr.buildAt]
    refine (agree_buildAt ha _ x).bind fun i i' _ h₁ hi => ?_
    refine (agree_buildAt h₁ _ y).bind fun j j' g₂ h₂ hj => ?_
    refine (agree_name h₂ label).bind fun n n' g₃ h₃ hn => ?_
    exact agree_node h₃ span (.fieldAssign (hi.grow (g₂.trans g₃)).1 hn (hj.grow g₃).1)
  | .declare type variants => by
    rw [Expr.buildAt, Expr.buildAt]
    refine (agree_name ha type).bind fun t t' _ h₁ ht => ?_
    refine (agree_variants h₁ variants).bind fun vs vs' g₂ h₂ hvs => ?_
    exact agree_node h₂ span (.declare ⟨g₂.name ht, hvs⟩)
  | .construct type variant fields => by
    rw [Expr.buildAt, Expr.buildAt]
    refine (agree_buildFields ha fields).bind fun vs vs' _ h₁ hvs => ?_
    refine (agree_name h₁ type).bind fun t t' g₂ h₂ ht => ?_
    refine (agree_name h₂ variant).bind fun v v' g₃ h₃ hv => ?_
    refine (agree_names h₃ _).bind fun ns ns' g₄ h₄ hns => ?_
    have hvs' := onBuilt_grow ((g₂.trans g₃).trans g₄) hvs
    exact agree_node h₄ span
      (.construct ((g₃.trans g₄).name ht) (g₄.name hv) (forall₂_zip hns hvs'))
  | .intrinsic f args => by
    rw [Expr.buildAt, Expr.buildAt]
    refine (agree_buildAll ha args).bind fun as as' _ h₁ has => ?_
    exact agree_node h₁ span (.intrinsic f (node_of_onBuilt has))
  | .located inner e => by
    rw [Expr.buildAt, Expr.buildAt]
    exact agree_buildAt ha inner e

theorem Expr.agree_buildAll {L : Likeness} {a : σ} {a' : σ'} (ha : C.rel L a a') :
    (es : List Expr) → C.Agree L a a' (fun L => List.Forall₂ (OnBuilt L)) (Expr.buildAll es)
      (Expr.buildAll es)
  | [] => by
    rw [Expr.buildAll, Expr.buildAll]
    exact .pure ha .nil
  | e :: es => by
    rw [Expr.buildAll, Expr.buildAll]
    refine (agree_buildAt ha _ e).bind fun n n' _ h₁ hn => ?_
    refine (agree_buildAll h₁ es).bind fun ns ns' g₂ h₂ hns => ?_
    exact .pure h₂ (.cons (hn.grow g₂) hns)

theorem Expr.agree_buildFields {L : Likeness} {a : σ} {a' : σ'} (ha : C.rel L a a') :
    (fs : List (String × Expr)) →
      C.Agree L a a' (fun L => List.Forall₂ (OnBuilt L)) (Expr.buildFields fs)
        (Expr.buildFields fs)
  | [] => by
    rw [Expr.buildFields, Expr.buildFields]
    exact .pure ha .nil
  | (_, e) :: fs => by
    rw [Expr.buildFields, Expr.buildFields]
    refine (agree_buildAt ha _ e).bind fun n n' _ h₁ hn => ?_
    refine (agree_buildFields h₁ fs).bind fun ns ns' g₂ h₂ hns => ?_
    exact .pure h₂ (.cons (hn.grow g₂) hns)

end

/-! ### The prelude -/

theorem Prelude.agree_functions {L : Likeness} {a : σ} {a' : σ'} (ha : C.rel L a a') :
    C.Agree L a a' (fun L => List.Forall₂ L.OnFunction) Prelude.functions Prelude.functions := by
  unfold Prelude.functions
  refine (agree_name ha _).bind fun param param' _ h₁ hparam => ?_
  refine Agree.mapM (S := fun L => L.OnFunction) (fun h hf => h.onFunction hf)
    (fun primitive g₂ h₂ => ?_) h₁ Intrinsic.all
  unfold Prelude.function Expr.build
  refine (Expr.agree_buildAt h₂ _ _).bind fun b b' g₃ h₃ hb => ?_
  refine (agree_name h₃ _).bind fun n n' g₄ h₄ hn => ?_
  have hparam' := (g₂.trans (g₃.trans g₄)).name hparam
  exact .pure h₄ ⟨hn, .cons hparam' .nil, (hb.grow g₄).1⟩

end

end LazyExpr
