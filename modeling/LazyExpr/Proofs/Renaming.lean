/-
LazyExpr/Proofs/Renaming.lean

Evaluation does not see how names, decimals and nodes are numbered.

A renaming between two programs says which names, decimals and nodes of the one stand
for which of the other: names that stand for each other have the same text, and equal
names stand for equal ones; decimals are equal; nodes are alike, down to what they
refer to.  Nothing is said about names and nodes that stand for none.

Stores correspond under a renaming when they are the same up to it, entry by entry: the
same tables, instances and lists in the same places.  This is kept by every access to
the store, so each renaming is a simulation (`Renaming.simulation`).  On a diagonal it
says that a store holds only names and nodes that the renaming knows.
-/
import LazyExpr.Proofs.Agreement

namespace LazyExpr

/-! ### Lists and arrays -/

section

variable {α β : Type} {R : α → β → Prop}

theorem forall₂_getElem? {xs : List α} {ys : List β} (h : List.Forall₂ R xs ys) (i : Nat) :
    Option.Rel R xs[i]? ys[i]? := by
  induction h generalizing i with
  | nil => exact .none
  | cons hab _ ih =>
    cases i with
    | zero => exact .some hab
    | succ i => exact ih i

theorem forall₂_modify {f : α → α} {g : β → β} (hfg : ∀ a b, R a b → R (f a) (g b)) {xs : List α}
    {ys : List β} (h : List.Forall₂ R xs ys) (i : Nat) :
    List.Forall₂ R (xs.modify i f) (ys.modify i g) := by
  induction h generalizing i with
  | nil => simp
  | cons hab h ih =>
    cases i with
    | zero => exact .cons (hfg _ _ hab) h
    | succ i => exact .cons hab (ih i)

theorem forall₂_push {xs : Array α} {ys : Array β} (h : List.Forall₂ R xs.toList ys.toList)
    {a : α} {b : β} (hab : R a b) : List.Forall₂ R (xs.push a).toList (ys.push b).toList := by
  rw [Array.toList_push, Array.toList_push]
  exact List.rel_append h (.cons hab .nil)

end

/-! ### Stores, types and calls -/

namespace Likeness

variable (L : Likeness)

structure OnEntry (e e' : Name × Binding) : Prop where
  name : L.name e.1 e'.1
  binding : L.OnBinding e.2 e'.2

/-- The same entries in the same order. -/
def OnBindings (bs bs' : Bindings) : Prop := List.Forall₂ L.OnEntry bs.entries bs'.entries

/-- The same tables, instances and lists in the same places. -/
structure OnStore (σ σ' : Store) : Prop where
  scopes : List.Forall₂ L.OnBindings σ.scopes.toList σ'.scopes.toList
  instances : List.Forall₂ L.OnInstance σ.instances.toList σ'.instances.toList
  lists : σ.lists = σ'.lists

/-- The same declarations in the same order. -/
def OnTypes (τ τ' : Types) : Prop := List.Forall₂ L.OnDataType τ.entries τ'.entries

structure OnFrame (f f' : Frame) : Prop where
  name : L.name f.name f'.name
  span : f.span = f'.span

/-- The same calls under the same limit. -/
structure OnCalls (cs cs' : CallStack) : Prop where
  frames : List.Forall₂ L.OnFrame cs.frames.toList cs'.frames.toList
  limit : cs.limit = cs'.limit

variable {L} {M : Likeness}

theorem Grows.onStore (h : L.Grows M) {σ σ' : Store} (e : L.OnStore σ σ') : M.OnStore σ σ' where
  scopes := e.scopes.imp fun _ _ bs => bs.imp fun _ _ b => ⟨h.name b.name, h.onBinding b.binding⟩
  instances := e.instances.imp fun _ _ => h.onInstance
  lists := e.lists

namespace OnStore

variable {σ σ' : Store}

theorem bindings (h : L.OnStore σ σ') (s : ScopeId) : L.OnBindings (σ.bindings s) (σ'.bindings s) := by
  have hs := forall₂_getElem? h.scopes s.index
  rw [Array.getElem?_toList, Array.getElem?_toList] at hs
  unfold Store.bindings
  generalize σ.scopes[s.index]? = b, σ'.scopes[s.index]? = b' at hs
  cases hs with
  | none => exact .nil
  | some hb => exact hb

theorem size_eq (h : L.OnStore σ σ') : σ.scopes.size = σ'.scopes.size := by
  simpa using h.scopes.length_eq

theorem addScope (h : L.OnStore σ σ') {bs bs' : Bindings} (hbs : L.OnBindings bs bs') :
    (σ.addScope bs).1 = (σ'.addScope bs').1 ∧ L.OnStore (σ.addScope bs).2 (σ'.addScope bs').2 :=
  ⟨congrArg ScopeId.mk h.size_eq, { h with scopes := forall₂_push h.scopes hbs }⟩

theorem setBindings (h : L.OnStore σ σ') (s : ScopeId) {bs bs' : Bindings}
    (hbs : L.OnBindings bs bs') : L.OnStore (σ.setBindings s bs) (σ'.setBindings s bs') := by
  refine { h with scopes := ?_ }
  simp only [Store.setBindings, Array.toList_setIfInBounds]
  exact forall₂_set h.scopes hbs _

theorem addList (h : L.OnStore σ σ') (ts us : List Thunk) :
    L.OnStore (σ.addList ts).2 (σ'.addList us).2 :=
  { h with lists := congrArg (· + 1) h.lists }

theorem addInstance (h : L.OnStore σ σ') {d d' : Instance} (hd : L.OnInstance d d') :
    (σ.addInstance d).1 = (σ'.addInstance d').1 ∧
      L.OnStore (σ.addInstance d).2 (σ'.addInstance d').2 := by
  have hsize : σ.instances.size = σ'.instances.size := by simpa using h.instances.length_eq
  exact ⟨congrArg InstanceId.mk hsize, { h with instances := forall₂_push h.instances hd }⟩

end OnStore

theorem Grows.onTypes (h : L.Grows M) {τ τ' : Types} (e : L.OnTypes τ τ') : M.OnTypes τ τ' :=
  e.imp fun _ _ => h.onDataType

end Likeness

/-! ### Renamings -/

/-- Which names, decimals and nodes of one program stand for which of another. -/
structure Renaming (p p' : Program) (L : Likeness) : Prop where
  text : ∀ {n n'}, L.name n n' → p.names.text n = p'.names.text n'
  empty : L.name .empty .empty
  name_iff : ∀ {a a' b b'}, L.name a a' → L.name b b' → (a = b ↔ a' = b')
  node_iff : ∀ {a a' b b'}, L.node a a' → L.node b b' → (a = b ↔ a' = b')
  node : ∀ {n n'}, L.node n n' →
    ∃ a a', p.node? n = some a ∧ p'.node? n' = some a' ∧ L.OnNode L.node a a'
  number : ∀ {a a'}, L.number a a' → ∃ d, p.number? a = some d ∧ p'.number? a' = some d
  suspended : ∀ {n n'}, L.suspended n n' → L.node n n'
  -- the store is numbered alike on both sides
  scope : ∀ {s s'}, L.scope s s' ↔ s = s'
  data : ∀ {i i'}, L.data i i' ↔ i = i'
  list : ∀ {i i'}, L.list i i' ↔ i = i'

namespace Renaming

variable {p p' : Program} {L : Likeness}

/-! ### Names -/

theorem beq_eq (h : Renaming p p' L) {a a' b b' : Name} (ha : L.name a a') (hb : L.name b b') :
    (a == b) = (a' == b') := by
  rw [Bool.eq_iff_iff, beq_iff_eq, beq_iff_eq]
  exact h.name_iff ha hb

theorem isEmpty_eq (h : Renaming p p' L) {n n' : Name} (hn : L.name n n') :
    n.isEmpty = n'.isEmpty :=
  h.beq_eq hn h.empty

theorem contains_eq (h : Renaming p p' L) {n n' : Name} {ns ns' : List Name} (hn : L.name n n')
    (hns : List.Forall₂ L.name ns ns') : ns.contains n = ns'.contains n' := by
  rw [List.contains_eq_any_beq, List.contains_eq_any_beq]
  exact forall₂_any hns fun _ _ hm => h.beq_eq hn hm

theorem names_iff (h : Renaming p p' L) {as as' bs bs' : List Name}
    (ha : List.Forall₂ L.name as as') (hb : List.Forall₂ L.name bs bs') : as = bs ↔ as' = bs' := by
  induction ha generalizing bs bs' with
  | nil => cases hb <;> simp
  | cons ha _ ih =>
    cases hb with
    | nil => simp
    | cons hb hbs => rw [List.cons.injEq, List.cons.injEq, h.name_iff ha hb, ih hbs]

/-! ### Tables of bindings -/

theorem find (h : Renaming p p' L) {bs bs' : Bindings} {n n' : Name} (hbs : L.OnBindings bs bs')
    (hn : L.name n n') : Option.Rel L.OnBinding (bs.find? n) (bs'.find? n') := by
  have hfind := forall₂_find hbs fun e e' (he : L.OnEntry e e') => h.beq_eq he.name hn
  unfold Bindings.find?
  generalize bs.entries.find? _ = e, bs'.entries.find? _ = e' at hfind
  cases hfind with
  | none => exact .none
  | some he => exact .some he.binding

theorem insert (h : Renaming p p' L) {bs bs' : Bindings} {n n' : Name} {b b' : Binding}
    (hbs : L.OnBindings bs bs') (hn : L.name n n') (hb : L.OnBinding b b') :
    L.OnBindings (bs.insert n b) (bs'.insert n' b') := by
  have go : ∀ {es es' : List (Name × Binding)}, List.Forall₂ L.OnEntry es es' →
      List.Forall₂ L.OnEntry (Bindings.insertEntry n b es) (Bindings.insertEntry n' b' es') := by
    intro es es' hes
    induction hes with
    | nil => exact .cons ⟨hn, hb⟩ .nil
    | cons he hes ih =>
      unfold Bindings.insertEntry
      rw [h.beq_eq he.name hn]
      split
      · exact .cons ⟨hn, hb⟩ hes
      · exact .cons he ih
  exact go hbs

/-! ### Stores -/

section

variable {σ σ' : Store}

theorem define (h : Renaming p p' L) (hσ : L.OnStore σ σ') (s : ScopeId) {n n' : Name}
    {b b' : Binding} (hn : L.name n n') (hb : L.OnBinding b b') :
    L.OnStore (σ.define s n b) (σ'.define s n' b') :=
  hσ.setBindings s (h.insert (hσ.bindings s) hn hb)

theorem instanceAt (h : Renaming p p' L) (hσ : L.OnStore σ σ') (i : InstanceId) :
    L.OnInstance (σ.instanceAt i) (σ'.instanceAt i) := by
  have hi := forall₂_getElem? hσ.instances i.index
  rw [Array.getElem?_toList, Array.getElem?_toList] at hi
  unfold Store.instanceAt
  generalize σ.instances[i.index]? = d, σ'.instances[i.index]? = d' at hi
  cases hi with
  | none => exact ⟨h.empty, h.empty, .nil⟩
  | some hd => exact hd

theorem setField (h : Renaming p p' L) (hσ : L.OnStore σ σ') (i : InstanceId) {n n' : Name}
    {t t' : Thunk} (hn : L.name n n') (ht : L.OnThunk t t') :
    L.OnStore (σ.setField i n t) (σ'.setField i n' t') := by
  refine { hσ with instances := ?_ }
  simp only [Store.setField, Array.toList_modify]
  have hset : ∀ d d', L.OnInstance d d' → L.OnInstance (d.setField n t) (d'.setField n' t') :=
    fun d d' hd => hd.setField (fun ha => h.beq_eq ha hn) hn ht
  exact forall₂_modify hset hσ.instances _

end

/-! ### Declared types -/

section

variable {τ τ' : Types}

theorem variant (h : Renaming p p' L) (hτ : L.OnTypes τ τ') {t t' v v' : Name}
    (ht : L.name t t') (hv : L.name v v') :
    OnExcept L.OnVariant (τ.variant p.names t v) (τ'.variant p'.names t' v') := by
  have hfind := forall₂_find hτ fun e e' (he : L.OnDataType e e') => h.beq_eq he.name ht
  unfold Types.variant Types.find?
  rw [h.text ht, h.text hv]
  generalize τ.entries.find? _ = e, τ'.entries.find? _ = e' at hfind
  cases hfind with
  | none => exact .error _
  | @some e e' he =>
    have hvariant := forall₂_find he.variants fun w w' (hw : L.OnVariant w w') => h.beq_eq hw.name hv
    unfold DataType.variant?
    dsimp only
    generalize e.variants.find? _ = w, e'.variants.find? _ = w' at hvariant
    cases hvariant with
    | none => exact .error _
    | some hw => exact .ok hw

theorem firstRepeated (h : Renaming p p' L) {seen seen' ns ns' : List Name}
    (hs : List.Forall₂ L.name seen seen') (hns : List.Forall₂ L.name ns ns') :
    Option.Rel L.name (DataType.firstRepeated seen ns) (DataType.firstRepeated seen' ns') := by
  induction hns generalizing seen seen' with
  | nil => exact .none
  | cons hn _ ih =>
    unfold DataType.firstRepeated
    rw [h.contains_eq hn hs]
    split
    · exact .some hn
    · exact ih (.cons hn hs)

/-- Declarations that are alike have the same defect, with the same message. -/
theorem defect (h : Renaming p p' L) {t t' : DataType} (ht : L.OnDataType t t') :
    t.defect?.map (·.message p.names) = t'.defect?.map (·.message p'.names) := by
  have go : ∀ {vs vs'}, List.Forall₂ L.OnVariant vs vs' → ∀ {seen seen'},
      List.Forall₂ L.name seen seen' →
      (DataType.variantsDefect? seen vs).map (·.message p.names) =
        (DataType.variantsDefect? seen' vs').map (·.message p'.names) := by
    intro vs vs' hvs
    induction hvs with
    | nil => exact fun _ => rfl
    | @cons v v' _ _ hv _ ih =>
      intro seen seen' hs
      unfold DataType.variantsDefect?
      rw [h.contains_eq hv.name hs]
      split
      · simp [DataType.Defect.message, h.text hv.name]
      · have hfield := h.firstRepeated .nil hv.fields
        generalize DataType.firstRepeated [] v.fields = f,
          DataType.firstRepeated [] v'.fields = f' at hfield
        cases hfield with
        | none => exact ih (.cons hv.name hs)
        | some hf => simp [DataType.Defect.message, h.text hf, h.text hv.name]
  unfold DataType.defect?
  rw [forall₂_isEmpty ht.variants]
  split
  · rfl
  · exact go ht.variants .nil

theorem dataType_iff (h : Renaming p p' L) {t t' u u' : DataType} (ht : L.OnDataType t t')
    (hu : L.OnDataType u u') : t = u ↔ t' = u' := by
  have hvariants : ∀ {vs vs'}, List.Forall₂ L.OnVariant vs vs' → ∀ {ws ws'},
      List.Forall₂ L.OnVariant ws ws' → (vs = ws ↔ vs' = ws') := by
    intro vs vs' hvs
    induction hvs with
    | nil => exact fun hws => by cases hws <;> simp
    | @cons v v' _ _ hv _ ih =>
      intro ws ws' hws
      cases hws with
      | nil => simp
      | @cons w w' _ _ hw hws =>
        obtain ⟨n, fs⟩ := v
        obtain ⟨n', fs'⟩ := v'
        obtain ⟨m, gs⟩ := w
        obtain ⟨m', gs'⟩ := w'
        simp only [List.cons.injEq, Variant.mk.injEq, h.name_iff hv.name hw.name,
          h.names_iff hv.fields hw.fields, ih hws]
  obtain ⟨n, vs⟩ := t
  obtain ⟨n', vs'⟩ := t'
  obtain ⟨m, ws⟩ := u
  obtain ⟨m', ws'⟩ := u'
  simp only [DataType.mk.injEq, h.name_iff ht.name hu.name, hvariants ht.variants hu.variants]

theorem declare (h : Renaming p p' L) (hτ : L.OnTypes τ τ') {t t' : DataType}
    (ht : L.OnDataType t t') :
    OnExcept L.OnTypes (τ.declare p.names t) (τ'.declare p'.names t') := by
  have hdefect := h.defect ht
  have hfind := forall₂_find hτ fun e e' (he : L.OnDataType e e') => h.beq_eq he.name ht.name
  unfold Types.declare Types.find?
  rw [h.text ht.name]
  generalize t.defect? = d, t'.defect? = d' at hdefect
  rcases d with - | d
  · obtain rfl : d' = none := by simpa using hdefect.symm
    dsimp only
    generalize τ.entries.find? _ = e, τ'.entries.find? _ = e' at hfind
    cases hfind with
    | none => exact .ok (List.rel_append hτ (.cons ht .nil))
    | @some known known' he =>
      dsimp only
      by_cases hsame : known = t
      · rw [if_pos hsame, if_pos ((h.dataType_iff he ht).1 hsame)]
        exact .ok hτ
      · rw [if_neg hsame, if_neg (mt (h.dataType_iff he ht).2 hsame)]
        exact .error _
  · obtain ⟨d', rfl, hmessage⟩ : ∃ e, d' = some e ∧ d.message p.names = e.message p'.names := by
      rcases d' with - | d'
      · simp at hdefect
      · exact ⟨d', rfl, by simpa using hdefect⟩
    dsimp only
    rw [hmessage]
    exact .error _

end

/-! ### Calls -/

section

variable {cs cs' : CallStack}

theorem depth_eq (hcs : L.OnCalls cs cs') : cs.depth = cs'.depth := by
  simpa [CallStack.depth] using hcs.frames.length_eq

/-- A call is entered on both sides, or refused with the same cause. -/
theorem push (hcs : L.OnCalls cs cs') {f f' : Frame} (hf : L.OnFrame f f') :
    OnExcept L.OnCalls (cs.push f) (cs'.push f') := by
  unfold CallStack.push
  rw [hcs.limit, depth_eq hcs]
  split
  · exact .error _
  · exact .ok ⟨forall₂_push hcs.frames hf, rfl⟩

/-- Backtraces show the same texts. -/
theorem attach_eq (h : Renaming p p' L) (hcs : L.OnCalls cs cs') :
    cs.attach p.names = cs'.attach p'.names := by
  have hcapture : cs.capture p.names = cs'.capture p'.names := by
    unfold CallStack.capture
    refine congrArg Backtrace.mk (forall₂_map_eq (List.rel_reverse hcs.frames) ?_)
    intro f f' hf
    rw [CallStack.frameName, CallStack.frameName, h.isEmpty_eq hf.name, h.text hf.name, hf.span]
  have hempty : cs.isEmpty = cs'.isEmpty := by
    have hdepth := depth_eq hcs
    unfold CallStack.depth at hdepth
    simp [CallStack.isEmpty, Array.isEmpty, hdepth]
  funext f
  rw [CallStack.attach, CallStack.attach, hcapture, hempty]

end

/-! ### The simulation -/

/-- Evaluations of what stands for each other end alike.  With less fuel on the left,
running out of it is excused there. -/
def simulation (h : Renaming p p' L) : Simulation p p' where
  toLikeness := L
  own := (· = ·)
  state σ τ σ' τ' := L.OnStore σ σ' ∧ L.OnTypes τ τ'
  calls := L.OnCalls
  sink := (· = ·)
  stop _ _ e e' := e = e'
  excused := (· = .outOfFuel)
  text_eq := h.text
  empty_iff hn := h.name_iff hn h.empty
  name_iff := h.name_iff
  node_iff := h.node_iff
  data_iff := by
    intro a a' b b' ha hb
    rw [h.data.1 ha, h.data.1 hb]
  list_iff := by
    intro a a' b b' ha hb
    rw [h.list.1 ha, h.list.1 hb]
  own_scope := h.scope.2
  find := by
    intro σ τ σ' τ' s s' n n' hσ hs hn
    obtain rfl := h.scope.1 hs
    exact h.find (hσ.1.bindings s) hn
  assign := by
    intro σ τ σ' τ' s s' n n' b b' hσ hs hn hb _
    obtain rfl := h.scope.1 hs
    exact ⟨h.define hσ.1 s hn hb, hσ.2⟩
  define := by
    rintro σ τ σ' τ' s _ n n' v v' hσ rfl hn hv
    exact ⟨h.define hσ.1 s hn ⟨hv, rfl⟩, hσ.2⟩
  copy := by
    intro σ τ σ' τ' s s' hσ hs
    obtain rfl := h.scope.1 hs
    obtain ⟨hid, hσ'⟩ := hσ.1.addScope (hσ.1.bindings s)
    exact ⟨hid, hσ', hσ.2⟩
  add_list := by
    intro σ τ σ' τ' ts us hσ
    exact ⟨h.list.2 (congrArg ListId.mk hσ.1.lists), hσ.1.addList ts us, hσ.2⟩
  instance_at := by
    intro σ τ σ' τ' i i' hσ hi
    obtain rfl := h.data.1 hi
    exact h.instanceAt hσ.1 i
  set_field := by
    intro σ τ σ' τ' i i' n n' v v' hσ hi hn hv
    obtain rfl := h.data.1 hi
    exact ⟨h.setField hσ.1 i hn (.forced hv), hσ.2⟩
  add_instance := by
    intro σ τ σ' τ' d d' v hσ hd _ _
    obtain ⟨hid, hσ'⟩ := hσ.1.addInstance hd
    exact ⟨h.data.2 hid, hσ', hσ.2⟩
  variant := by
    intro σ τ σ' τ' t t' v v' hσ ht hv
    exact h.variant hσ.2 ht hv
  declare := by
    intro σ τ σ' τ' t t' hσ ht
    have hτ := h.declare hσ.2 ht
    generalize τ.declare p.names t = r, τ'.declare p'.names t' = r' at hτ
    cases hτ with
    | ok hτ => exact .ok ⟨hσ.1, hτ⟩
    | error c => exact .error c
  write := @Sink.write_eq_of_eq
  enter := by
    intro cs cs' n n' d sp hcs hn hd
    have hpush := push hcs (show L.OnFrame ⟨n, sp⟩ ⟨n', sp⟩ from ⟨hn, rfl⟩)
    rw [hd] at hpush
    generalize cs'.push ⟨n', sp⟩ = r' at hpush
    cases hpush with
    | @ok _ d' hd' =>
      refine ⟨d', rfl, hd', ?_⟩
      rintro e _ rfl
      rw [h.attach_eq hd']
  refuse := by
    intro cs cs' n n' c sp hcs hn hd
    have hpush := push hcs (show L.OnFrame ⟨n, sp⟩ ⟨n', sp⟩ from ⟨hn, rfl⟩)
    rw [hd] at hpush
    generalize cs'.push ⟨n', sp⟩ = r' at hpush
    cases hpush with
    | error =>
      refine .inr ⟨c, rfl, ?_⟩
      rw [h.attach_eq hcs]
  raise := fun _ _ => rfl
  reach := fun _ => rfl
  capacity := fun _ => rfl
  place := @Stop.placedAt_eq_of_eq
  excused_mapFault f _ he := Stop.mapFault_outOfFuel f he

theorem programs (h : Renaming p p' L) : h.simulation.Programs where
  node := by
    intro n n' hn
    obtain ⟨a, a', ha, ha', hnode⟩ := h.node hn
    rw [ha, ha']
    exact .some hnode
  number := by
    intro a a' ha
    obtain ⟨d, hd, hd'⟩ := h.number ha
    rw [hd, hd']
    exact .some rfl
  suspended := h.suspended
  fuel _ := rfl

end Renaming

end LazyExpr
