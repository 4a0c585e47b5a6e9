/-
LazyExpr/Proofs/RoundTrip.lean

Building an expression in an arena and reading it back.

Whatever the arena holds already, the node that building returns is read as the
expression that was built, in the form that `Expr.resolve` gives it, or building stops
with the error that resolving has.  Everything that was in the arena is read as before,
and goes on to be: nodes, decimals, names and slices, however much is added to the arena
later and whether or not the building of it is given up halfway.

An expression that was read is in resolved form, so that reading, building and reading
again gives it unchanged.
-/
import LazyExpr.Proofs.Reading

namespace LazyExpr

/-! ### What is read is resolved -/

/-- An expression that has a place at every node, and whose literals are resolved. -/
def Expr.Resolved (e : Expr) : Prop := ∀ span, e.resolveAt span = .ok e

theorem Expr.resolveAll_of_resolved {es : List Expr} (h : ∀ e ∈ es, e.Resolved) :
    Expr.resolveAll es = .ok es := by
  induction es with
  | nil => rfl
  | cons e es ih =>
    rw [Expr.resolveAll, h e List.mem_cons_self _,
      ih fun e he => h e (List.mem_cons_of_mem _ he)]
    rfl

theorem Expr.resolveFields_of_resolved {fs : List (String × Expr)}
    (h : ∀ f ∈ fs, f.2.Resolved) : Expr.resolveFields fs = .ok fs := by
  induction fs with
  | nil => rfl
  | cons f fs ih =>
    rw [Expr.resolveFields, h f List.mem_cons_self _,
      ih fun f hf => h f (List.mem_cons_of_mem _ hf)]
    rfl

theorem forall_mem_of_mapM {α β : Type} {f : α → Option β} {P : β → Prop}
    (hf : ∀ a b, f a = some b → P b) {as : List α} {bs : List β} (h : as.mapM f = some bs) :
    ∀ b ∈ bs, P b := by
  induction as generalizing bs with
  | nil =>
    cases h
    exact nofun
  | cons a as ih =>
    obtain ⟨b, hb, cs, hcs, rfl⟩ := mapM_cons_eq_some.1 h
    exact List.forall_mem_cons.2 ⟨hf a b hb, ih hcs⟩

namespace Program

variable {p : Program}

theorem resolveAt_readKind {part : NodeId → Option Expr}
    (hpart : ∀ id t, part id = some t → t.Resolved) {k : Kind} {t : Expr}
    (h : p.readKind part k = some t) (span : Span) : t.resolveAt span = .ok (.located span t) := by
  have hall : ∀ {ids : List NodeId} {ts}, ids.mapM part = some ts →
      Expr.resolveAll ts = .ok ts := fun h =>
    Expr.resolveAll_of_resolved (forall_mem_of_mapM hpart h)
  -- names and decimals are resolved already, so only the parts matter
  cases k with
  | number id =>
    obtain ⟨d, -, ⟨⟩⟩ := Option.bind_eq_some_iff.1 h
    rfl
  | bool b =>
    cases h
    rfl
  | char c =>
    cases h
    rfl
  | text content =>
    obtain ⟨s, -, ⟨⟩⟩ := Option.bind_eq_some_iff.1 h
    rfl
  | void =>
    cases h
    rfl
  | ident name =>
    obtain ⟨s, -, ⟨⟩⟩ := Option.bind_eq_some_iff.1 h
    rfl
  | assign name value mutability =>
    obtain ⟨s, -, h⟩ := Option.bind_eq_some_iff.1 h
    obtain ⟨v, hv, ⟨⟩⟩ := Option.bind_eq_some_iff.1 h
    rw [Expr.resolveAt, hpart _ v hv]
    rfl
  | seq statements result =>
    obtain ⟨ss, hss, h⟩ := Option.bind_eq_some_iff.1 h
    obtain ⟨r, hr, ⟨⟩⟩ := Option.bind_eq_some_iff.1 h
    rw [Expr.resolveAt, hall hss, hpart _ r hr]
    rfl
  | ifElse condition whenTrue whenFalse =>
    obtain ⟨x, hx, h⟩ := Option.bind_eq_some_iff.1 h
    obtain ⟨y, hy, h⟩ := Option.bind_eq_some_iff.1 h
    obtain ⟨z, hz, ⟨⟩⟩ := Option.bind_eq_some_iff.1 h
    rw [Expr.resolveAt, hpart _ x hx, hpart _ y hy, hpart _ z hz]
    rfl
  | lambda name params body =>
    obtain ⟨s, -, h⟩ := Option.bind_eq_some_iff.1 h
    obtain ⟨ps, -, h⟩ := Option.bind_eq_some_iff.1 h
    obtain ⟨b, hb, ⟨⟩⟩ := Option.bind_eq_some_iff.1 h
    rw [Expr.resolveAt, hpart _ b hb]
    rfl
  | call callee args =>
    obtain ⟨f, hf, h⟩ := Option.bind_eq_some_iff.1 h
    obtain ⟨as, has, ⟨⟩⟩ := Option.bind_eq_some_iff.1 h
    rw [Expr.resolveAt, hpart _ f hf, hall has]
    rfl
  | binary op left right =>
    obtain ⟨x, hx, h⟩ := Option.bind_eq_some_iff.1 h
    obtain ⟨y, hy, ⟨⟩⟩ := Option.bind_eq_some_iff.1 h
    rw [Expr.resolveAt, hpart _ x hx, hpart _ y hy]
    rfl
  | list items =>
    obtain ⟨is, his, ⟨⟩⟩ := Option.bind_eq_some_iff.1 h
    rw [Expr.resolveAt, hall his]
    rfl
  | index source position =>
    obtain ⟨x, hx, h⟩ := Option.bind_eq_some_iff.1 h
    obtain ⟨y, hy, ⟨⟩⟩ := Option.bind_eq_some_iff.1 h
    rw [Expr.resolveAt, hpart _ x hx, hpart _ y hy]
    rfl
  | indexAssign target position value =>
    obtain ⟨s, -, h⟩ := Option.bind_eq_some_iff.1 h
    obtain ⟨x, hx, h⟩ := Option.bind_eq_some_iff.1 h
    obtain ⟨y, hy, ⟨⟩⟩ := Option.bind_eq_some_iff.1 h
    rw [Expr.resolveAt, hpart _ x hx, hpart _ y hy]
    rfl
  | field receiver label =>
    obtain ⟨x, hx, h⟩ := Option.bind_eq_some_iff.1 h
    obtain ⟨s, -, ⟨⟩⟩ := Option.bind_eq_some_iff.1 h
    rw [Expr.resolveAt, hpart _ x hx]
    rfl
  | fieldAssign receiver label value =>
    obtain ⟨x, hx, h⟩ := Option.bind_eq_some_iff.1 h
    obtain ⟨s, -, h⟩ := Option.bind_eq_some_iff.1 h
    obtain ⟨y, hy, ⟨⟩⟩ := Option.bind_eq_some_iff.1 h
    rw [Expr.resolveAt, hpart _ x hx, hpart _ y hy]
    rfl
  | declare type variants =>
    obtain ⟨s, -, h⟩ := Option.bind_eq_some_iff.1 h
    obtain ⟨vs, -, ⟨⟩⟩ := Option.bind_eq_some_iff.1 h
    rfl
  | construct type variant fields =>
    obtain ⟨s, -, h⟩ := Option.bind_eq_some_iff.1 h
    obtain ⟨v, -, h⟩ := Option.bind_eq_some_iff.1 h
    obtain ⟨fs, hfs, ⟨⟩⟩ := Option.bind_eq_some_iff.1 h
    have hfield : ∀ f g, p.readField part f = some g → g.2.Resolved := by
      intro f g hg
      obtain ⟨s, -, hg⟩ := Option.bind_eq_some_iff.1 hg
      obtain ⟨e, he, ⟨⟩⟩ := Option.bind_eq_some_iff.1 hg
      exact hpart _ e he
    rw [Expr.resolveAt, Expr.resolveFields_of_resolved (forall_mem_of_mapM hfield hfs)]
    rfl
  | intrinsic function args =>
    obtain ⟨as, has, ⟨⟩⟩ := Option.bind_eq_some_iff.1 h
    rw [Expr.resolveAt, hall has]
    rfl

theorem resolved_readExpr {depth : Nat} {id : NodeId} {t : Expr}
    (h : p.readExpr depth id = some t) : t.Resolved := by
  induction depth generalizing id t with
  | zero => cases h
  | succ depth ih =>
    obtain ⟨n, -, h⟩ := Option.bind_eq_some_iff.1 h
    obtain ⟨e, he, ⟨⟩⟩ := Option.bind_eq_some_iff.1 h
    intro span
    rw [Expr.resolveAt]
    exact resolveAt_readKind (fun _ _ h => ih h) he n.span

end Program

/-! ### Arenas -/

namespace Arena

open Storage

/-- Everything that one arena has is read in another as it was. -/
structure Keeps (a b : Arena) : Prop where
  expr : ∀ id, Stays (a.expr? id) (b.expr? id)
  node : ∀ id, Stays (a.program.node? id) (b.program.node? id)
  number : ∀ id, Stays (a.program.number? id) (b.program.number? id)
  text : ∀ n, Stays (a.program.names.text? n) (b.program.names.text? n)
  nodes : ∀ s : Slice, s.Fits a.tables.nodes → s.read b.tables.nodes = s.read a.tables.nodes
  names : ∀ s : Slice, s.Fits a.tables.names → s.read b.tables.names = s.read a.tables.names
  fields : ∀ s : Slice, s.Fits a.tables.fields → s.read b.tables.fields = s.read a.tables.fields
  variants : ∀ s : Slice, s.Fits a.tables.variants →
    b.tables.readVariants s = a.tables.readVariants s

variable {a b : Arena}

theorem tables_of_later (h : Later a b) : a.tables.Grows b.tables := by
  induction h with
  | refl => exact .refl _
  | @addNode b n _ ih => exact ih.trans (b.tables.grows_store n.kind)
  | addNumber d _ ih => exact ih
  | addName t _ ih => exact ih

theorem keeps_of_later (h : Later a b) : a.Keeps b where
  expr := h.grows.stays_expr
  node := h.grows.stays_node
  number := h.grows.stays_number
  text := h.grows.stays_text
  nodes _ := (tables_of_later h).nodes.read_eq
  names _ := (tables_of_later h).names.read_eq
  fields _ := (tables_of_later h).fields.read_eq
  variants _ := (tables_of_later h).readVariants_eq

/-- What is built in an arena is read back, and stays.  Building an expression fails with
the error that it resolves to, or gives a node that is read as what it resolves to.
All nodes of an arena that is only built in are expressions, also those of a build that
failed.  Whatever is added later, everything that was in the arena is read as it was,
and a node for parts that were read in it is read as the expression of those parts. -/
theorem built_is_read_back :
    empty.program.Readable ∧ ∀ a : Arena,
      (∀ e : Expr, match e.resolve with
        | .ok t => t.resolve = .ok t ∧
            ∃ id b, e.build a = .ok id b ∧ Leads a b ∧ b.expr? id = some t
        | .error err => ∃ b, e.build a = .error err b ∧ Leads a b) ∧
      ∀ b, Later a b → a.Keeps b ∧
        ∀ k span t, a.program.readKind a.expr? k = some t →
          (b.addNode ⟨k, span⟩).2.expr? (b.addNode ⟨k, span⟩).1 = some (.located span t) := by
  refine ⟨?_, fun a => ⟨fun e => ?_, fun b h => ?_⟩⟩
  · rw [program_empty]
    exact Program.readable_empty
  · have h := Expr.matches_buildAt a .unlocated e
    unfold Build.Matches at h
    unfold Expr.resolve Expr.build
    generalize e.buildAt .unlocated a = r, e.resolveAt .unlocated = y at h
    cases h with
    | @ok b id t hb ht => exact ⟨Program.resolved_readExpr ht _, id, b, rfl, hb, ht⟩
    | @error err b hb => exact ⟨b, rfl, hb⟩
  · refine ⟨keeps_of_later h, fun k span t ht => ?_⟩
    exact Storage.expr?_addNode (h.grows.stays_readKind h.grows.stays_expr k t ht) span

/-- A list whose name and text are one entry of the table of names is read as it was
built, also after the building of another expression was given up. -/
theorem built_is_read_back_after_failure :
    ∃ id b c,
      (Expr.list [.located ⟨3, 6⟩ (.text "x"), .ident "x"]).build empty = .ok id b ∧
      (Expr.binary .add (.ident "y") (.numeral "1.2.3")).build b = .error (.malformed "1.2.3") c ∧
      c.expr? id = some (.located .unlocated
        (.list [.located ⟨3, 6⟩ (.text "x"), .located .unlocated (.ident "x")])) := by
  have hresolve : (Expr.list [.located ⟨3, 6⟩ (.text "x"), .ident "x"]).resolve =
      .ok (.located .unlocated
        (.list [.located ⟨3, 6⟩ (.text "x"), .located .unlocated (.ident "x")])) := rfl
  have hfails : (Expr.binary .add (.ident "y") (.numeral "1.2.3")).resolve =
      .error (.malformed "1.2.3") := rfl
  have h := (built_is_read_back.2 empty).1 (.list [.located ⟨3, 6⟩ (.text "x"), .ident "x"])
  rw [hresolve] at h
  obtain ⟨-, id, b, hb, -, ht⟩ := h
  have h' := (built_is_read_back.2 b).1 (.binary .add (.ident "y") (.numeral "1.2.3"))
  rw [hfails] at h'
  obtain ⟨c, hc, hbc⟩ := h'
  exact ⟨id, b, c, hb, hc, ((built_is_read_back.2 b).2 c hbc.later).1.expr id _ ht⟩

end Arena

end LazyExpr
