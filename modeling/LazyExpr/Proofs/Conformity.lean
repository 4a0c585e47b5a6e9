/-
LazyExpr/Proofs/Conformity.lean

Data instances conform to the declarations.

Three mechanisms meet here.  A declaration is refused if a variant repeats a
field, so the fields of a declared variant are distinct.  A constructor is refused
unless its fields are the declared ones, and it then arranges them as declared
(`Variant.names_arrange`), so a new instance has exactly those fields in that
order.  And an assignment to a field replaces what is in it, not the field.

Types are only added, and what is declared stays as it is, so an instance goes on
to conform.  No evaluation changes what an instance is an instance of, or the
names of its fields: that is the second invariant, which starts from any store.
-/
import LazyExpr.Proofs.History

namespace LazyExpr

/-! ### Conforming instances -/

/-- An instance is of a declared type and variant, and its fields are the declared
ones, in the declared order, each once. -/
def Types.Describes (τ : Types) (d : Instance) : Prop :=
  ∃ t v, τ.find? d.type = some t ∧ t.variant? d.variant = some v ∧
    d.fields.map (·.1) = v.fields ∧ v.fields.Nodup

/-- The declared types have no defects, and they describe all instances. -/
structure Store.Conforms (σ : Store) (τ : Types) : Prop where
  sound : ∀ t ∈ τ.entries, t.defect? = none
  described : ∀ i : InstanceId, i.index < σ.instances.size → τ.Describes (σ.instanceAt i)

/-- What a declaration describes depends on the names of the fields alone. -/
theorem Types.Describes.setField {τ : Types} {d : Instance} (h : τ.Describes d) (n : Name)
    (t : Thunk) : τ.Describes (d.setField n t) := by
  obtain ⟨u, v, hu, hv, hnames, hnodup⟩ := h
  refine ⟨u, v, hu, hv, ?_, hnodup⟩
  exact (Instance.map_fst_replaceField n t d.fields).trans hnames

theorem Types.Describes.declare {τ τ' : Types} {d : Instance} (h : τ.Describes d)
    (hτ : ∀ name t, τ.find? name = some t → τ'.find? name = some t) : τ'.Describes d := by
  obtain ⟨t, v, ht, hv, hnames, hnodup⟩ := h
  exact ⟨t, v, hτ _ _ ht, hv, hnames, hnodup⟩

/-- A constructor that is accepted makes an instance that is described. -/
theorem Types.describes_of_variant {τ : Types} (hτ : ∀ t ∈ τ.entries, t.defect? = none)
    {names : Names} {d : Instance} {v : Variant}
    (hv : τ.variant names d.type d.variant = .ok v) (hnames : d.fields.map (·.1) = v.fields) :
    τ.Describes d := by
  obtain ⟨t, ht, hvt⟩ := Types.variant_eq_ok hv
  have hdefect : t.defect? = none := hτ t (List.mem_of_find?_eq_some ht)
  exact ⟨t, v, ht, hvt, hnames, DataType.nodup_fields hdefect (List.mem_of_find?_eq_some hvt)⟩

namespace Store

variable {σ σ₀ : Store} {τ τ' : Types}

theorem Conforms.setField (h : σ.Conforms τ) (i : InstanceId) (n : Name) (t : Thunk) :
    (σ.setField i n t).Conforms τ := by
  refine ⟨h.sound, fun j hj => ?_⟩
  rw [size_setField] at hj
  rw [instanceAt_setField]
  split
  · next e =>
    subst e
    exact (h.described j hj).setField n t
  · exact h.described j hj

theorem Conforms.addInstance (h : σ.Conforms τ) {d : Instance} (hd : τ.Describes d) :
    (σ.addInstance d).2.Conforms τ := by
  refine ⟨h.sound, fun j hj => ?_⟩
  rw [instanceAt_addInstance]
  split
  · exact hd
  · next hne =>
    refine h.described j ?_
    rw [size_addInstance] at hj
    have hlast : j.index ≠ σ.instances.size := fun e => hne (by rw [Store.addInstance, ← e])
    omega

theorem Conforms.declare (h : σ.Conforms τ) {names : Names} {t : DataType}
    (hτ : τ.declare names t = .ok τ') : σ.Conforms τ' := by
  obtain ⟨hnew, hfind⟩ := Types.declare_eq_ok hτ
  refine ⟨fun u hu => ?_, fun i hi => (h.described i hi).declare hfind⟩
  rcases hnew u hu with hold | hdefect
  · exact h.sound u hold
  · exact hdefect

end Store

/-- All instances are described by the declared types. -/
def conformity (p : Program) : StoreInvariant p where
  own _ := True
  state := Store.Conforms
  assign _ h _ := ⟨h.sound, h.described⟩
  define _ _ h _ := ⟨h.sound, h.described⟩
  copy _ h := ⟨trivial, h.sound, h.described⟩
  add_list _ h := ⟨h.sound, h.described⟩
  set_field i n t h := h.setField i n t
  add_instance h hv hnames := h.addInstance (Types.describes_of_variant h.sound hv hnames)
  declare h hτ := h.declare hτ

/-! ### The shape of an instance -/

/-- What an instance is an instance of, and the names of its fields. -/
def Instance.shape (d : Instance) : Name × Name × List Name :=
  (d.type, d.variant, d.fields.map (·.1))

theorem Instance.shape_setField (d : Instance) (n : Name) (t : Thunk) :
    (d.setField n t).shape = d.shape := by
  unfold Instance.shape Instance.setField
  rw [Instance.map_fst_replaceField]

/-- The instances of one store have the same shapes in another. -/
structure Store.KeepsShapes (σ₀ σ : Store) : Prop where
  le : σ₀.instances.size ≤ σ.instances.size
  eq : ∀ i : InstanceId, i.index < σ₀.instances.size →
    (σ.instanceAt i).shape = (σ₀.instanceAt i).shape

namespace Store

variable {σ σ₀ : Store}

theorem KeepsShapes.setField (h : σ₀.KeepsShapes σ) (i : InstanceId) (n : Name) (t : Thunk) :
    σ₀.KeepsShapes (σ.setField i n t) := by
  refine ⟨by rw [size_setField]; exact h.le, fun j hj => ?_⟩
  rw [instanceAt_setField]
  split
  · next e =>
    subst e
    rw [Instance.shape_setField, h.eq j hj]
  · exact h.eq j hj

theorem KeepsShapes.addInstance (h : σ₀.KeepsShapes σ) (d : Instance) :
    σ₀.KeepsShapes (σ.addInstance d).2 := by
  have hle := h.le
  refine ⟨by rw [size_addInstance]; omega, fun j hj => ?_⟩
  have hne : j ≠ (σ.addInstance d).1 := by
    rintro rfl
    exact absurd hj (Nat.not_lt.2 hle)
  rw [instanceAt_addInstance, if_neg hne, h.eq j hj]

end Store

/-- The instances of a store keep their shapes. -/
def shapes (p : Program) (σ₀ : Store) : StoreInvariant p where
  own _ := True
  state σ _ := σ₀.KeepsShapes σ
  assign _ h _ := ⟨h.le, h.eq⟩
  define _ _ h _ := ⟨h.le, h.eq⟩
  copy _ h := ⟨trivial, h.le, h.eq⟩
  add_list _ h := ⟨h.le, h.eq⟩
  set_field i n t h := h.setField i n t
  add_instance h _ _ := h.addInstance _
  declare h _ := h

/-! ### In every state of a session -/

/-- However a session goes on from a global scope with any bindings, every instance
is of a declared type and variant and has exactly the declared fields; and no
evaluation, from any state, changes what an instance is an instance of or the
names of its fields. -/
theorem data_instances_conform (program : Program) (bs : Bindings) (limit : Nat) :
    (∀ s, (Session.withBindings program bs limit).Reachable s →
      ∀ i : InstanceId, i.index < s.store.instances.size →
        s.types.Describes (s.store.instanceAt i)) ∧
    ∀ (p : Program) (fuel reach rest : Nat) (id : NodeId) (m : Machine) (i : InstanceId),
      i.index < m.store.instances.size →
      ((((p.context fuel reach rest).eval id).after m).store.instanceAt i).shape =
        (m.store.instanceAt i).shape := by
  refine ⟨fun s h => ?_, fun p fuel reach rest id m i hi => ?_⟩
  · have hstart : (Session.withBindings program bs limit).store.Conforms
        (Session.withBindings program bs limit).types := by
      refine ⟨fun t ht => ?_, fun i hi => ?_⟩
      · cases ht
      · cases hi
    exact (h.of_storeInvariant conformity (fun _ => rfl) hstart).described
  · have hm : m.store.KeepsShapes m.store := ⟨Nat.le_refl _, fun _ _ => rfl⟩
    exact ((shapes p m.store).state_eval fuel reach rest id hm).eq i hi

/-- A type with the fields `x` and `y`, an instance constructed with `y` before
`x`, and an assignment to its field `x`. -/
theorem data_instances_conform_after_assignment :
    let p : Program := ⟨#[⟨.declare ⟨1⟩ [⟨⟨2⟩, [⟨3⟩, ⟨4⟩]⟩], .unlocated⟩, ⟨.void, .unlocated⟩,
      ⟨.bool true, .unlocated⟩, ⟨.construct ⟨1⟩ ⟨2⟩ [(⟨4⟩, ⟨1⟩), (⟨3⟩, ⟨2⟩)], .unlocated⟩,
      ⟨.assign ⟨5⟩ ⟨3⟩ .mutable, .unlocated⟩, ⟨.ident ⟨5⟩, .unlocated⟩,
      ⟨.fieldAssign ⟨5⟩ ⟨3⟩ ⟨1⟩, .unlocated⟩], #[], .initial⟩
    let s := ((Session.withBindings p .empty 3).run 1 .emptyBuffer [⟨0⟩, ⟨4⟩]).2
    let m := s.machine .emptyBuffer
    s.types.Describes (s.store.instanceAt ⟨0⟩) ∧
    ((((p.context 3 1 3).eval ⟨6⟩).after m).store.instanceAt ⟨0⟩).shape =
      (⟨1⟩, ⟨2⟩, [⟨3⟩, ⟨4⟩]) := by
  intro p s m
  obtain ⟨hdescribed, hshape⟩ := data_instances_conform p .empty 3
  have hs : (Session.withBindings p .empty 3).Reachable s := by
    refine .run 1 .emptyBuffer .start ?_
    decide
  exact ⟨hdescribed s hs ⟨0⟩ (by decide), hshape p 3 1 3 ⟨6⟩ m ⟨0⟩ (by decide)⟩

end LazyExpr
