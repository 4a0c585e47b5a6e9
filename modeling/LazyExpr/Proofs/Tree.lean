/-
LazyExpr/Proofs/Tree.lean

Equality of values is equality of trees.

A value in which nothing is deferred, and which does not come back to itself through the
fields of data, unfolds to a finite tree: numbers stand for rationals, lists and data for
what is in them, and neither the number of a list nor that of an instance is left
(`Value.Denotes`).  Two such values are equal in the language exactly if they unfold to the
same tree (`equal_of_denotes`).

The comparison does not look into lists and instances that it finds to be the same.  For
instances that is no loss, since there is one store.  Lists have their elements with them,
and it is the ledger that says that two lists of the same number have the same elements; in
every session there is such a ledger.

The host tells instances apart that have the same contents.  What is the same for the host is
equal in the language.  Where there is no data the converse holds too
(`Value.same_of_not_hasData`).  A value with data in it may well be compared with itself, but
there is always a copy to be made of it that only the host tells apart (`exists_copy`), so that
host and language agree about a value and all others exactly if it has no data in it.
-/
import LazyExpr.Proofs.Allocation
import LazyExpr.Proofs.Decimal.Order

namespace LazyExpr

/-! ### Trees -/

/-- What a value unfolds to. -/
inductive Tree where
  | number (n : ℚ)
  | bool (b : Bool)
  | char (c : Char)
  | list (items : List Tree)
  | function (f : Function)
  | data (type variant : Name) (fields : List (Name × Tree))
  | void

namespace Tree

theorem exists_eq_succ_of_sizeOf_le {s : Tree} {depth : Nat} (h : sizeOf s ≤ depth) :
    ∃ d, depth = d + 1 := by
  have hpos : 0 < sizeOf s := by cases s <;> simp
  exact Nat.exists_eq_succ_of_ne_zero (Nat.lt_of_lt_of_le hpos h).ne'

theorem sizeOf_lt_of_mem_items {items : List Tree} {t : Tree} (h : t ∈ items) :
    sizeOf t < sizeOf (list items) := by
  have hsize := List.sizeOf_lt_of_mem h
  rw [list.sizeOf_spec]
  omega

theorem sizeOf_lt_of_mem_fields {type variant : Name} {fields : List (Name × Tree)}
    {f : Name × Tree} (h : f ∈ fields) : sizeOf f.2 < sizeOf (data type variant fields) := by
  have hsize := List.sizeOf_lt_of_mem h
  rw [Prod.mk.sizeOf_spec] at hsize
  rw [data.sizeOf_spec]
  omega

end Tree

/-- A value stands for a tree: nothing in it is deferred, and following the instances of the
store it comes to an end. -/
inductive Value.Denotes (σ : Store) : Value → Tree → Prop
  | number (n : Decimal) : Value.Denotes σ (.number n) (.number n.toRat)
  | bool (b : Bool) : Value.Denotes σ (.bool b) (.bool b)
  | char (c : Char) : Value.Denotes σ (.char c) (.char c)
  | list (i : ListId) {ps : List (Value × Tree)} : (∀ p ∈ ps, Value.Denotes σ p.1 p.2) →
      Value.Denotes σ (.list i (ps.map fun p => .forced p.1)) (.list (ps.map (·.2)))
  | function (f : Function) : Value.Denotes σ (.function f) (.function f)
  | data {i : InstanceId} {ps : List ((Name × Value) × Tree)} :
      (σ.instanceAt i).fields = ps.map (fun p => (p.1.1, .forced p.1.2)) →
      (∀ p ∈ ps, Value.Denotes σ p.1.2 p.2) →
      Value.Denotes σ (.data i) (.data (σ.instanceAt i).type (σ.instanceAt i).variant
        (ps.map fun p => (p.1.1, p.2)))
  | void : Value.Denotes σ .void .void

namespace Value

variable {σ : Store} {i : ListId} {ts : List Thunk} {s t : Tree} {v : Value}

theorem denotes_list_iff : (Value.list i ts).Denotes σ s ↔
    ∃ ps : List (Value × Tree), ts = ps.map (fun p => .forced p.1) ∧ s = .list (ps.map (·.2)) ∧
      ∀ p ∈ ps, p.1.Denotes σ p.2 := by
  constructor
  · intro h
    generalize hv : Value.list i ts = v at h
    cases h with
    | list _ hps =>
      cases hv
      exact ⟨_, rfl, rfl, hps⟩
    | _ => cases hv
  · rintro ⟨ps, rfl, rfl, hps⟩
    exact .list i hps

theorem denotes_data_iff {i : InstanceId} : (Value.data i).Denotes σ s ↔
    ∃ ps : List ((Name × Value) × Tree),
      (σ.instanceAt i).fields = ps.map (fun p => (p.1.1, .forced p.1.2)) ∧
      s = .data (σ.instanceAt i).type (σ.instanceAt i).variant (ps.map fun p => (p.1.1, p.2)) ∧
      ∀ p ∈ ps, p.1.2.Denotes σ p.2 := by
  constructor
  · intro h
    cases h with
    | data hfields hps => exact ⟨_, hfields, rfl, hps⟩
  · rintro ⟨ps, hfields, rfl, hps⟩
    exact .data hfields hps

/-- Parts that are the same have the same trees, if each has one tree. -/
theorem eq_of_map_eq {α γ : Type} {ps qs : List (α × Tree)} {f : α → γ} {R : α → Tree → Prop}
    (hf : Function.Injective f) (hps : ∀ p ∈ ps, ∀ t, R p.1 t → p.2 = t)
    (hqs : ∀ q ∈ qs, R q.1 q.2) (h : ps.map (fun p => f p.1) = qs.map (fun q => f q.1)) :
    ps = qs := by
  induction ps generalizing qs with
  | nil =>
    cases qs with
    | nil => rfl
    | cons q qs => cases h
  | cons p ps ih =>
    cases qs with
    | nil => cases h
    | cons q qs =>
      obtain ⟨hhead, htail⟩ := List.cons.inj h
      obtain ⟨hp, hps⟩ := List.forall_mem_cons.1 hps
      obtain ⟨hq, hqs⟩ := List.forall_mem_cons.1 hqs
      have hfst : p.1 = q.1 := hf hhead
      have hsnd : p.2 = q.2 := hp q.2 (hfst ▸ hq)
      rw [ih hps hqs htail, Prod.ext hfst hsnd]

/-- A value stands for one tree. -/
theorem Denotes.unique (hs : v.Denotes σ s) (ht : v.Denotes σ t) : s = t := by
  induction hs generalizing t with
  | list i hps ih =>
    obtain ⟨qs, hts, rfl, hqs⟩ := denotes_list_iff.1 ht
    have hinjective : Function.Injective Thunk.forced := fun _ _ h => Thunk.forced.inj h
    rw [eq_of_map_eq hinjective (fun p hp _ hb => ih p hp hb) hqs hts]
  | data hfields hps ih =>
    obtain ⟨qs, hfields', rfl, hqs⟩ := denotes_data_iff.1 ht
    have hinjective : Function.Injective fun f : Name × Value => (f.1, Thunk.forced f.2) := by
      intro f g h
      obtain ⟨hname, hvalue⟩ := Prod.mk.inj h
      exact Prod.ext hname (Thunk.forced.inj hvalue)
    rw [eq_of_map_eq hinjective (R := fun f => f.2.Denotes σ) (fun p hp _ hb => ih p hp hb) hqs
      (hfields.symm.trans hfields')]
  | _ =>
    cases ht
    rfl

end Value

/-! ### Comparison -/

theorem map_eq_map_iff {α β γ : Type} {ps : List α} {qs : List β} {f : α → γ} {g : β → γ} :
    ps.map f = qs.map g ↔ List.Forall₂ (fun p q => f p = g q) ps qs := by
  rw [← List.forall₂_eq_eq_eq, List.forall₂_map_left_iff, List.forall₂_map_right_iff]

theorem map_eq_map_iff_zip {α β γ : Type} {ps : List α} {qs : List β} {f : α → γ} {g : β → γ}
    (h : ps.length = qs.length) : ps.map f = qs.map g ↔ ∀ z ∈ ps.zip qs, f z.1 = g z.2 := by
  rw [map_eq_map_iff, List.forall₂_iff_zip]
  exact ⟨fun hz z hmem => hz.2 hmem, fun hz => ⟨h, fun hmem => hz _ hmem⟩⟩

/-- The values in the fields of an instance are on record. -/
theorem Store.Recorded.of_field {σ : Store} {l : Ledger} (hσ : σ.Recorded l) {i : InstanceId}
    {ps : List ((Name × Value) × Tree)} {p : (Name × Value) × Tree}
    (h : (σ.instanceAt i).fields = ps.map fun p => (p.1.1, .forced p.1.2)) (hp : p ∈ ps) :
    p.1.2.Recorded l :=
  Thunk.recorded_forced_iff.1 (hσ.fields i (p.1.1, .forced p.1.2) (h ▸ List.mem_map_of_mem hp))

/-- The values in a list are on record. -/
theorem Value.Recorded.of_item {l : Ledger} {i : ListId} {ps : List (Value × Tree)}
    (h : (Value.list i (ps.map fun p => .forced p.1)).Recorded l) {p : Value × Tree} (hp : p ∈ ps) :
    p.1.Recorded l :=
  Thunk.recorded_forced_iff.1 ((Value.recorded_list_iff.1 h).2 _ (List.mem_map_of_mem hp))

section Comparison

variable {force : Thunk → Eval Value} (hforce : ∀ v, force (.forced v) = pure v)
variable {equal : Value → Value → Eval Bool} {m : Machine}

include hforce

/-- Pairs of values with their trees, which a comparison decides from left to right. -/
theorem allPairs_of_denotes {zs : List ((Value × Tree) × (Value × Tree))}
    (h : ∀ z ∈ zs, ∃ r, equal z.1.1 z.2.1 m = .ok r m ∧ (r = true ↔ z.1.2 = z.2.2)) :
    ∃ r, Equality.allPairs force equal (zs.map fun z => (.forced z.1.1, .forced z.2.1)) m = .ok r m ∧
      (r = true ↔ ∀ z ∈ zs, z.1.2 = z.2.2) := by
  induction zs with
  | nil => exact ⟨true, rfl, by simp⟩
  | cons z zs ih =>
    obtain ⟨hz, hzs⟩ := List.forall_mem_cons.1 h
    obtain ⟨r, hr, hiff⟩ := hz
    rw [List.map_cons, Equality.allPairs, hforce, hforce, pure_bind, pure_bind,
      Eval.bind_of_ok hr]
    cases r with
    | false => exact ⟨false, rfl, by simp at hiff; simp [hiff]⟩
    | true =>
      obtain ⟨r', hr', hiff'⟩ := ih hzs
      exact ⟨r', hr', by simp at hiff; simp [hiff, hiff']⟩

theorem items_of_denotes {ps qs : List (Value × Tree)}
    (h : ∀ p ∈ ps, ∀ q ∈ qs, ∃ r, equal p.1 q.1 m = .ok r m ∧ (r = true ↔ p.2 = q.2)) :
    ∃ r, Equality.items force equal (ps.map fun p => .forced p.1) (qs.map fun q => .forced q.1) m =
        .ok r m ∧ (r = true ↔ ps.map (·.2) = qs.map (·.2)) := by
  unfold Equality.items
  rw [List.length_map, List.length_map]
  split
  · next hlength =>
    rw [List.zip_map, map_eq_map_iff_zip hlength]
    refine allPairs_of_denotes hforce fun z hz => ?_
    obtain ⟨hp, hq⟩ := List.of_mem_zip hz
    exact h z.1 hp z.2 hq
  · next hlength =>
    refine ⟨false, rfl, ?_⟩
    simp only [Bool.false_eq_true, false_iff]
    intro heq
    exact hlength (by simpa using congrArg List.length heq)

theorem fieldPairs_of_denotes {zs : List (((Name × Value) × Tree) × ((Name × Value) × Tree))}
    (h : ∀ z ∈ zs, ∃ r, equal z.1.1.2 z.2.1.2 m = .ok r m ∧ (r = true ↔ z.1.2 = z.2.2)) :
    ∃ r, Equality.fieldPairs force equal
        (zs.map fun z => ((z.1.1.1, .forced z.1.1.2), (z.2.1.1, .forced z.2.1.2))) m = .ok r m ∧
      (r = true ↔ ∀ z ∈ zs, (z.1.1.1, z.1.2) = (z.2.1.1, z.2.2)) := by
  induction zs with
  | nil => exact ⟨true, rfl, by simp⟩
  | cons z zs ih =>
    obtain ⟨hz, hzs⟩ := List.forall_mem_cons.1 h
    obtain ⟨r, hr, hiff⟩ := hz
    rw [List.map_cons, Equality.fieldPairs]
    split
    · next hname =>
      rw [hforce, hforce, pure_bind, pure_bind, Eval.bind_of_ok hr]
      cases r with
      | false => exact ⟨false, rfl, by simp at hiff; simp [hiff]⟩
      | true =>
        obtain ⟨r', hr', hiff'⟩ := ih hzs
        exact ⟨r', hr', by simp at hiff; simp [hname, hiff, hiff']⟩
    · next hname => exact ⟨false, rfl, by simp [hname]⟩

theorem instances_of_denotes {d e : Instance} {ps qs : List ((Name × Value) × Tree)}
    (hd : d.fields = ps.map fun p => (p.1.1, .forced p.1.2))
    (he : e.fields = qs.map fun q => (q.1.1, .forced q.1.2))
    (h : ∀ p ∈ ps, ∀ q ∈ qs, ∃ r, equal p.1.2 q.1.2 m = .ok r m ∧ (r = true ↔ p.2 = q.2)) :
    ∃ r, Equality.instances force equal d e m = .ok r m ∧
      (r = true ↔ Tree.data d.type d.variant (ps.map fun p => (p.1.1, p.2)) =
        .data e.type e.variant (qs.map fun q => (q.1.1, q.2))) := by
  unfold Equality.instances
  rw [hd, he, List.length_map, List.length_map]
  split
  · next hshape =>
    obtain ⟨htype, hvariant, hlength⟩ := hshape
    rw [List.zip_map, htype, hvariant]
    simp only [Tree.data.injEq, true_and]
    rw [map_eq_map_iff_zip hlength]
    refine fieldPairs_of_denotes hforce fun z hz => ?_
    obtain ⟨hp, hq⟩ := List.of_mem_zip hz
    exact h z.1 hp z.2 hq
  · next hshape =>
    refine ⟨false, rfl, ?_⟩
    simp only [Bool.false_eq_true, false_iff, Tree.data.injEq]
    rintro ⟨htype, hvariant, hfields⟩
    exact hshape ⟨htype, hvariant, by simpa using congrArg List.length hfields⟩

variable {σ : Store} {l : Ledger} (hl : l.Exact) (hσ : σ.Recorded l) (hm : m.store = σ)

include hl hσ hm

/-- Values that stand for trees are compared to the end, without a change of state, and are
equal exactly if the trees are.  The induction is on the left value. -/
theorem equal_of_denotes {a b : Value} {s t : Tree} (ha : a.Denotes σ s) (hb : b.Denotes σ t)
    (hra : a.Recorded l) (hrb : b.Recorded l) {depth : Nat} (hdepth : sizeOf s ≤ depth) :
    ∃ r, a.equal force depth b m = .ok r m ∧ (r = true ↔ s = t) := by
  induction ha generalizing b t depth with
  | number n =>
    cases hb with
    | number n' =>
      exact ⟨n.sameValue n', by unfold Value.equal; rfl, by simp [Decimal.sameValue_iff]⟩
    | _ => exact ⟨false, by unfold Value.equal; rfl, by simp⟩
  | bool x =>
    cases hb with
    | bool x' => exact ⟨x == x', by unfold Value.equal; rfl, by simp⟩
    | _ => exact ⟨false, by unfold Value.equal; rfl, by simp⟩
  | char x =>
    cases hb with
    | char x' => exact ⟨x == x', by unfold Value.equal; rfl, by simp⟩
    | _ => exact ⟨false, by unfold Value.equal; rfl, by simp⟩
  | function f =>
    cases hb with
    | function f' => exact ⟨f == f', by unfold Value.equal; rfl, by simp⟩
    | _ => exact ⟨false, by unfold Value.equal; rfl, by simp⟩
  | void =>
    cases hb with
    | void => exact ⟨true, by unfold Value.equal; rfl, by simp⟩
    | _ => exact ⟨false, by unfold Value.equal; rfl, by simp⟩
  | @list i ps hps ih =>
    cases hb with
    | @list j qs hqs =>
      obtain ⟨hentry, -⟩ := Value.recorded_list_iff.1 hra
      obtain ⟨hentry', -⟩ := Value.recorded_list_iff.1 hrb
      unfold Value.equal
      split
      · next hij =>
        -- the ledger has one entry for the two
        subst hij
        have ha := Value.Denotes.list i hps
        rw [hl i _ _ hentry hentry'] at ha
        exact ⟨true, rfl, iff_of_true rfl (ha.unique (.list i hqs))⟩
      · obtain ⟨d, rfl⟩ := Tree.exists_eq_succ_of_sizeOf_le hdepth
        simp only [Tree.list.injEq]
        refine items_of_denotes hforce fun p hp q hq =>
          ih p hp (hqs q hq) (hra.of_item hp) (hrb.of_item hq) ?_
        refine Nat.le_of_lt_succ (Nat.lt_of_lt_of_le ?_ hdepth)
        exact Tree.sizeOf_lt_of_mem_items (List.mem_map_of_mem hp)
    | _ => exact ⟨false, by unfold Value.equal; rfl, by simp⟩
  | @data i ps hfields hps ih =>
    cases hb with
    | @data j qs hfields' hqs =>
      unfold Value.equal
      split
      · next hij =>
        subst hij
        have ha := Value.Denotes.data hfields hps
        exact ⟨true, rfl, iff_of_true rfl (ha.unique (.data hfields' hqs))⟩
      · obtain ⟨d, rfl⟩ := Tree.exists_eq_succ_of_sizeOf_le hdepth
        subst hm
        refine instances_of_denotes hforce hfields hfields' fun p hp q hq =>
          ih p hp (hqs q hq) (hσ.of_field hfields hp) (hσ.of_field hfields' hq) ?_
        refine Nat.le_of_lt_succ (Nat.lt_of_lt_of_le ?_ hdepth)
        exact Tree.sizeOf_lt_of_mem_fields (List.mem_map_of_mem (f := fun p => (p.1.1, p.2)) hp)
    | _ => exact ⟨false, by unfold Value.equal; rfl, by simp⟩

end Comparison

/-! ### Identity -/

theorem Thunk.sameAll_iff {ts us : List Thunk} :
    Thunk.sameAll ts us = true ↔ List.Forall₂ (fun t u => t.same u = true) ts us := by
  induction ts generalizing us with
  | nil => cases us <;> simp [Thunk.sameAll]
  | cons t ts ih => cases us <;> simp [Thunk.sameAll, ih]

namespace Value

/-- Lists of values, with their trees, are the same for the host if the values are. -/
theorem same_list_iff {i j : ListId} {ps qs : List (Value × Tree)} :
    (Value.list i (ps.map fun p => .forced p.1)).same (.list j (qs.map fun q => .forced q.1)) = true ↔
      List.Forall₂ (fun p q => p.1.same q.1 = true) ps qs := by
  rw [Value.same, Thunk.sameAll_iff, List.forall₂_map_left_iff, List.forall₂_map_right_iff]
  simp only [Thunk.same]

end Value

theorem forall₂_of_mem {α β : Type} {R S : α → β → Prop} {ps : List α} {qs : List β}
    (h : List.Forall₂ R ps qs) (hRS : ∀ p ∈ ps, ∀ q ∈ qs, R p q → S p q) :
    List.Forall₂ S ps qs := by
  rw [List.forall₂_iff_zip] at h ⊢
  refine ⟨h.1, fun hz => ?_⟩
  obtain ⟨hp, hq⟩ := List.of_mem_zip hz
  exact hRS _ hp _ hq (h.2 hz)

/-- There is data in a tree. -/
inductive Tree.HasData : Tree → Prop
  | data (type variant : Name) (fields : List (Name × Tree)) :
      Tree.HasData (.data type variant fields)
  | list {items : List Tree} {t : Tree} : t ∈ items → Tree.HasData t → Tree.HasData (.list items)

namespace Value

variable {σ : Store} {a b : Value} {s t : Tree}

/-- What is the same for the host stands for the same tree. -/
theorem eq_of_same (ha : a.Denotes σ s) (hb : b.Denotes σ t) (h : a.same b = true) : s = t := by
  induction ha generalizing b t with
  | number n =>
    cases hb with
    | number n' => exact congrArg Tree.number (Decimal.sameValue_iff.1 h)
    | _ => cases h
  | list i hps ih =>
    cases hb with
    | list j hqs =>
      have hsame := same_list_iff.1 h
      rw [map_eq_map_iff.2 (forall₂_of_mem hsame fun p hp q hq hpq => ih p hp (hqs q hq) hpq)]
    | _ => cases h
  | data hfields hps ih =>
    cases hb with
    | data hfields' hqs =>
      obtain rfl := LawfulBEq.eq_of_beq h
      exact (Denotes.data hfields hps).unique (.data hfields' hqs)
    | _ => cases h
  | _ =>
    cases hb <;> simp_all [Value.same]

/-- Without data in them, values that stand for the same tree are the same for the host. -/
theorem same_of_not_hasData (hs : ¬ s.HasData) (ha : a.Denotes σ s) (hb : b.Denotes σ t)
    (h : s = t) : a.same b = true := by
  induction ha generalizing b t with
  | number n =>
    cases hb with
    | number n' => exact Decimal.sameValue_iff.2 (Tree.number.inj h)
    | _ => cases h
  | @list i ps hps ih =>
    cases hb with
    | list j hqs =>
      refine same_list_iff.2 (forall₂_of_mem (map_eq_map_iff.1 (Tree.list.inj h)) ?_)
      intro p hp q hq hpq
      exact ih p hp (fun hdata => hs (.list (List.mem_map_of_mem hp) hdata)) (hqs q hq) hpq
    | _ => cases h
  | data hfields hps ih => exact absurd (.data _ _ _) hs
  | _ =>
    cases hb <;> simp_all [Value.same]

end Value

/-! ### Copies -/

variable {l l' : Ledger} {σ σ' : Store}

/-- What a value stands for does not depend on what is made later. -/
theorem Value.Denotes.extends {a : Value} {s : Tree} (ha : a.Denotes σ s) (hσ : σ.Recorded l)
    (hra : a.Recorded l) (h : σ.Extends σ') : a.Denotes σ' s := by
  induction ha with
  | number n => exact .number n
  | bool x => exact .bool x
  | char x => exact .char x
  | function f => exact .function f
  | void => exact .void
  | list i hps ih =>
    exact .list i fun p hp => ih p hp (hra.of_item hp)
  | @data i ps hfields hps ih =>
    have hi : i.index < σ.instances.size := hσ.lt_of_data hra
    have hvalues : ∀ p ∈ ps, p.1.2.Recorded l := fun p hp => hσ.of_field hfields hp
    rw [← h.instance_eq i hi] at hfields ⊢
    exact .data hfields fun p hp => ih p hp (hvalues p hp)

/-- An instance with the contents of another, which are values that stand for trees. -/
theorem denotes_addInstance {i : InstanceId} {s : Tree} (ha : (Value.data i).Denotes σ s)
    (hσ : σ.Recorded l) :
    (Value.data (σ.addInstance (σ.instanceAt i)).1).Denotes (σ.addInstance (σ.instanceAt i)).2 s := by
  obtain ⟨ps, hfields, rfl, hps⟩ := Value.denotes_data_iff.1 ha
  have hnew : (σ.addInstance (σ.instanceAt i)).2.instanceAt (σ.addInstance (σ.instanceAt i)).1 =
      σ.instanceAt i := by
    rw [Store.instanceAt_addInstance, if_pos rfl]
  refine Value.denotes_data_iff.2 ⟨ps, by rw [hnew, hfields], by rw [hnew], fun p hp => ?_⟩
  exact (hps p hp).extends hσ (hσ.of_field hfields hp) (σ.extends_addInstance _)

/-- A new list of values that stand for trees. -/
theorem denotes_addList (hσ : σ.Recorded l) {ps : List (Value × Tree)}
    (hps : ∀ p ∈ ps, p.1.Recorded l ∧ p.1.Denotes σ p.2) :
    (σ.addList (ps.map fun p => .forced p.1)).1.Recorded (l.enter (ps.map fun p => .forced p.1)) ∧
      (σ.addList (ps.map fun p => .forced p.1)).1.Denotes (σ.addList (ps.map fun p => .forced p.1)).2
        (.list (ps.map (·.2))) := by
  constructor
  · refine .list (.inr ⟨(congrArg Extent.lists hσ.extent).symm, rfl⟩) fun t ht => ?_
    obtain ⟨p, hp, rfl⟩ := List.mem_map.1 ht
    exact .forced ((hps p hp).1.mono (l.grows_enter _))
  · exact .list _ fun p hp => (hps p hp).2.extends hσ (hps p hp).1 (σ.extends_addList _)

/-- A value with data in it can be copied, to one that stands for the same tree and that the
host tells apart from it.  An instance is copied as it is, a list with a copy of an element
that has data in it. -/
theorem exists_copy {a : Value} {s : Tree} (hs : s.HasData) (ha : a.Denotes σ s)
    (hσ : σ.Recorded l) (hra : a.Recorded l) :
    ∃ (l' : Ledger) (σ' : Store) (b : Value), l.Grows l' ∧ σ.Extends σ' ∧ σ'.Recorded l' ∧
      b.Recorded l' ∧ b.Denotes σ' s ∧ a.same b = false := by
  induction ha with
  | @data i ps hfields hps ih =>
    obtain ⟨l', hgrows, hσ'⟩ := hσ.addInstance (hσ.fields i)
    refine ⟨l', _, .data (σ.addInstance (σ.instanceAt i)).1, hgrows, σ.extends_addInstance _, hσ',
      .data ?_, denotes_addInstance (.data hfields hps) hσ, beq_eq_false_iff_ne.2 ?_⟩
    · rw [hσ'.extent]
      show σ.instances.size < (σ.addInstance _).2.instances.size
      simp
    · exact fun heq => Nat.ne_of_lt (hσ.lt_of_data hra) (congrArg InstanceId.index heq)
  | @list i ps hps ih =>
    obtain ⟨p, hp, hdata⟩ : ∃ p ∈ ps, p.2.HasData := by
      cases hs with
      | list ht hdata =>
        obtain ⟨p, hp, rfl⟩ := List.mem_map.1 ht
        exact ⟨p, hp, hdata⟩
    obtain ⟨l₁, σ₁, b, hl₁, hσ₁, hrσ₁, hrb, hb, hsame⟩ := ih p hp hdata (hra.of_item hp)
    obtain ⟨before, after, rfl⟩ := List.append_of_mem hp
    have hqs : ∀ q ∈ before ++ (b, p.2) :: after, q.1.Recorded l₁ ∧ q.1.Denotes σ₁ q.2 := by
      intro q hq
      obtain rfl | hq : q = (b, p.2) ∨ q ∈ before ++ p :: after := by
        simp only [List.mem_append, List.mem_cons] at hq ⊢
        tauto
      · exact ⟨hrb, hb⟩
      · exact ⟨(hra.of_item hq).mono hl₁, (hps q hq).extends hσ (hra.of_item hq) hσ₁⟩
    have htrees : (before ++ p :: after).map (·.2) = (before ++ (b, p.2) :: after).map (·.2) := by
      simp
    obtain ⟨hrecorded, hdenotes⟩ := denotes_addList hrσ₁ hqs
    rw [← htrees] at hdenotes
    refine ⟨_, _, _, hl₁.trans (l₁.grows_enter _), hσ₁.trans (σ₁.extends_addList _),
      hrσ₁.addList _, hrecorded, hdenotes, Bool.eq_false_iff.2 fun hlists => ?_⟩
    -- the lists would be the same in the place of the copy as well
    have hrest := List.forall₂_drop_append _ _ _ (Value.same_list_iff.1 hlists)
    rw [List.drop_left] at hrest
    cases hrest with
    | cons hhead _ => exact Bool.false_ne_true (hsame.symm.trans hhead)
  | _ => cases hs

/-! ### Finite values -/

/-- A value on record, with the tree that it stands for. -/
structure FiniteValue (l : Ledger) (σ : Store) where
  value : Value
  tree : Tree
  recorded : value.Recorded l
  denotes : value.Denotes σ tree

/-- Comparing two values gives an answer and does nothing else, in whatever context, if only
it may go deep enough. -/
def Value.Compares (σ : Store) (a b : Value) (r : Bool) : Prop :=
  ∃ bound, ∀ (c : Context) (depth : Nat) (m : Machine), bound ≤ depth → m.store = σ →
    a.equal c.force depth b m = .ok r m

theorem Value.Compares.unique {a b : Value} {r r' : Bool} (h : a.Compares σ b r)
    (h' : a.Compares σ b r') : r = r' := by
  obtain ⟨d, hd⟩ := h
  obtain ⟨d', hd'⟩ := h'
  let c : Context := ⟨.empty, 0, fun _ => pure .void, fun _ => pure .void⟩
  let m : Machine := { (default : Machine) with store := σ }
  have hr := hd c (max d d') m (Nat.le_max_left _ _) rfl
  rw [hd' c (max d d') m (Nat.le_max_right _ _) rfl] at hr
  cases hr
  rfl

namespace FiniteValue

variable (hl : l.Exact) (hσ : σ.Recorded l) (a b : FiniteValue l σ)

include hl hσ

theorem compares : ∃ r, a.value.Compares σ b.value r ∧ (r = true ↔ a.tree = b.tree) := by
  classical
  refine ⟨decide (a.tree = b.tree), ⟨sizeOf a.tree, fun c depth m hdepth hm => ?_⟩,
    decide_eq_true_iff⟩
  have hforce : ∀ v, c.force (.forced v) = pure v := fun _ => rfl
  obtain ⟨r, hr, hiff⟩ := equal_of_denotes hforce hl hσ hm a.denotes b.denotes a.recorded
    b.recorded hdepth
  rw [hr, Bool.eq_iff_iff.2 (hiff.trans decide_eq_true_iff.symm)]

theorem compares_iff {r : Bool} :
    a.value.Compares σ b.value r ↔ (r = true ↔ a.tree = b.tree) := by
  obtain ⟨r', hr', hiff⟩ := compares hl hσ a b
  constructor
  · intro hr
    rwa [hr.unique hr']
  · intro h
    rwa [Bool.eq_iff_iff.2 (h.trans hiff.symm)]

theorem compares_true_iff : a.value.Compares σ b.value true ↔ a.tree = b.tree := by
  rw [compares_iff hl hσ a b]
  simp

theorem equivalence_compares :
    Equivalence fun a b : FiniteValue l σ => a.value.Compares σ b.value true where
  refl a := (compares_true_iff hl hσ a a).2 rfl
  symm {a b} h := (compares_true_iff hl hσ b a).2 ((compares_true_iff hl hσ a b).1 h).symm
  trans {a b c} h h' := (compares_true_iff hl hσ a c).2
    (((compares_true_iff hl hσ a b).1 h).trans ((compares_true_iff hl hσ b c).1 h'))

omit hl in
/-- The same value when more has been made. -/
def later (hgrows : l.Grows l') (hext : σ.Extends σ') : FiniteValue l' σ' :=
  ⟨a.value, a.tree, a.recorded.mono hgrows, a.denotes.extends hσ a.recorded hext⟩

/-- The host and the language agree about a value and all others, also those that are still
to be made, exactly if there is no data in it. -/
theorem compares_same_iff :
    (∀ (l' : Ledger) (σ' : Store), l.Grows l' → σ.Extends σ' → σ'.Recorded l' →
      ∀ b : FiniteValue l' σ', a.value.Compares σ' b.value (a.value.same b.value)) ↔
    ¬ a.tree.HasData := by
  constructor
  · intro hagree hdata
    obtain ⟨l', σ', v, hgrows, hext, hσ', hrv, hv, hsame⟩ :=
      exists_copy hdata a.denotes hσ a.recorded
    have hcompares := hagree l' σ' hgrows hext hσ' ⟨v, a.tree, hrv, hv⟩
    have hiff := (compares_iff (hl.grows hgrows) hσ' (a.later hσ hgrows hext) ⟨v, a.tree, hrv, hv⟩).1
      hcompares
    exact Bool.false_ne_true (hsame.symm.trans (hiff.2 rfl))
  · intro hdata l' σ' hgrows hext hσ' b
    have ha := (a.later hσ hgrows hext).denotes
    exact (compares_iff (hl.grows hgrows) hσ' (a.later hσ hgrows hext) b).2
      ⟨Value.eq_of_same ha b.denotes, Value.same_of_not_hasData hdata ha b.denotes⟩

end FiniteValue

/-! ### Sessions -/

/-- In every session the lists of the same number have the same elements. -/
theorem Host.exists_exact (limit : Nat) (requests : List Request) :
    ∃ l : Ledger, l.Exact ∧ ((Host.start (.withPrelude limit)).answerAll requests).2.Recorded l := by
  have hstart := (Host.issued_start (Session.issued_withPrelude limit)).recorded
  obtain ⟨l, hgrows, hrecorded⟩ := hstart.answerAll requests
  exact ⟨l, (Session.exact_withPrelude limit).grows hgrows, hrecorded⟩

/-- What an evaluation comes to is on record, with one entry for each list. -/
theorem Ledger.Exact.eval {l : Ledger} (hl : l.Exact) {p : Program} {fuel reach rest : Nat}
    {n : NodeId} {m m' : Machine} {v : Value} (hm : m.Recorded l)
    (h : (p.context fuel reach rest).eval n m = .ok v m') :
    ∃ l' : Ledger, l'.Exact ∧ m'.Recorded l' ∧ v.Recorded l' := by
  obtain ⟨l', hleads, _, -, hv⟩ := ((Ledger.contexts p fuel reach rest).eval n).of_ok hm h
  exact ⟨l', hl.grows hleads.grows, hleads.recorded, hv⟩

/-- What there is in a session is on record, with one entry for each list, and so is what an
evaluation comes to from there. -/
structure Ledger.CoverSessions : Prop where
  session : ∀ (limit : Nat) (requests : List Request), ∃ l : Ledger, l.Exact ∧
    ((Host.start (.withPrelude limit)).answerAll requests).2.Recorded l
  eval : ∀ (p : Program) (fuel reach rest : Nat) (n : NodeId) (l : Ledger) (m m' : Machine)
    (v : Value), l.Exact → m.Recorded l → (p.context fuel reach rest).eval n m = .ok v m' →
    ∃ l' : Ledger, l'.Exact ∧ m'.Recorded l' ∧ v.Recorded l'

theorem Ledger.coverSessions : Ledger.CoverSessions where
  session := Host.exists_exact
  eval _ _ _ _ _ _ _ _ _ hl hm h := hl.eval hm h

/-- Equality in the language is equality of structure.  Host equality implies it, and is the
same where there is no data.  An instance is equal to itself for both, so that they differ
where there is data is said of a value and all that may be compared with it. -/
theorem equality_is_structural :
    Ledger.CoverSessions ∧
    ∀ (l : Ledger) (σ : Store), l.Exact → σ.Recorded l →
      (∀ a b : FiniteValue l σ, ∃ r,
        a.value.Compares σ b.value r ∧ (r = true ↔ a.tree = b.tree)) ∧
      Equivalence (fun a b : FiniteValue l σ => a.value.Compares σ b.value true) ∧
      (∀ a b : FiniteValue l σ,
        a.value.same b.value = true → a.value.Compares σ b.value true) ∧
      (∀ a b : FiniteValue l σ, ¬ a.tree.HasData → ¬ b.tree.HasData →
        a.value.Compares σ b.value (a.value.same b.value)) ∧
      ∀ a : FiniteValue l σ,
        (∀ (l' : Ledger) (σ' : Store), l.Grows l' → σ.Extends σ' → σ'.Recorded l' →
          ∀ b : FiniteValue l' σ', a.value.Compares σ' b.value (a.value.same b.value)) ↔
        ¬ a.tree.HasData := by
  refine ⟨Ledger.coverSessions, fun l σ hl hσ => ⟨FiniteValue.compares hl hσ,
    FiniteValue.equivalence_compares hl hσ, fun a b hsame => ?_, fun a b ha _ => ?_,
    FiniteValue.compares_same_iff hl hσ⟩⟩
  · exact (a.compares_true_iff hl hσ b).2 (Value.eq_of_same a.denotes b.denotes hsame)
  · exact (a.compares_same_iff hl hσ).2 ha l σ (.refl l) (.refl σ) hσ b

/-! Two instances with the same contents, and a list of each. -/

def Instance.twin : Instance := ⟨⟨1⟩, ⟨2⟩, [(⟨3⟩, .forced .void)]⟩

def Store.twins : Store := ⟨#[], #[.twin, .twin], 2⟩

def Ledger.twins : Ledger where
  extent := Store.twins.extent
  entry i ts := i.index < 2 ∧ ts = [.forced (.data ⟨i.index⟩)]
  made hi := hi.1

theorem Ledger.exact_twins : Ledger.twins.Exact := fun _ _ _ hi hi' => hi.2.trans hi'.2.symm

theorem Store.recorded_twins : Store.twins.Recorded Ledger.twins where
  extent := rfl
  bound hb := by cases hb
  fields i f hf := by
    match i, hf with
    | ⟨0⟩, hf | ⟨1⟩, hf =>
      obtain rfl := List.mem_singleton.1 hf
      exact .forced .void
    | ⟨_ + 2⟩, hf => cases hf

def FiniteValue.twin (i : Fin 2) : FiniteValue Ledger.twins Store.twins where
  value := .data ⟨i⟩
  tree := .data ⟨1⟩ ⟨2⟩ [(⟨3⟩, .void)]
  recorded := .data i.isLt
  denotes := by
    have hinstance : Store.twins.instanceAt ⟨i⟩ = .twin := by
      match i with
      | 0 | 1 => rfl
    have hfields : (Store.twins.instanceAt ⟨i⟩).fields =
        [((⟨3⟩, .void), Tree.void)].map fun p => (p.1.1, .forced p.1.2) := by
      rw [hinstance]
      rfl
    have hdata := Value.Denotes.data hfields (List.forall_mem_singleton.2 .void)
    rwa [hinstance] at hdata

def FiniteValue.twinList (i : Fin 2) : FiniteValue Ledger.twins Store.twins where
  value := .list ⟨i⟩ [.forced (twin i).value]
  tree := .list [(twin i).tree]
  recorded := .list ⟨i.isLt, rfl⟩ (List.forall_mem_singleton.2 (.forced (twin i).recorded))
  denotes := Value.denotes_list_iff.2
    ⟨[((twin i).value, (twin i).tree)], rfl, rfl, List.forall_mem_singleton.2 (twin i).denotes⟩

/-- The lists are equal in the language, not for the host. -/
theorem equal_lists_told_apart :
    (FiniteValue.twinList 0).value.Compares .twins (FiniteValue.twinList 1).value true ∧
      (FiniteValue.twinList 0).value.same (FiniteValue.twinList 1).value = false := by
  obtain ⟨hcompares, -⟩ := equality_is_structural.2 .twins .twins Ledger.exact_twins
    Store.recorded_twins
  obtain ⟨r, hr, hiff⟩ := hcompares (.twinList 0) (.twinList 1)
  obtain rfl : r = true := hiff.2 rfl
  exact ⟨hr, rfl⟩

/-- An instance is equal to itself, in the language and for the host.  So it is not so that the
two agree about two values only if there is no data in them. -/
theorem agreement_about_instance :
    (FiniteValue.twin 0).value.Compares .twins (FiniteValue.twin 0).value true ∧
      (FiniteValue.twin 0).value.same (FiniteValue.twin 0).value = true ∧
      ¬ ∀ a b : FiniteValue .twins .twins,
        a.value.Compares .twins b.value (a.value.same b.value) ↔
          ¬ a.tree.HasData ∧ ¬ b.tree.HasData := by
  have hequal : (FiniteValue.twin 0).value.Compares .twins (FiniteValue.twin 0).value true :=
    (FiniteValue.compares_true_iff Ledger.exact_twins Store.recorded_twins _ _).2 rfl
  have hsame : (FiniteValue.twin 0).value.same (FiniteValue.twin 0).value = true := rfl
  refine ⟨hequal, hsame, fun hagree => ?_⟩
  have hdata := ((hagree (.twin 0) (.twin 0)).1 (by rwa [hsame])).1
  exact hdata (.data _ _ _)

end LazyExpr
