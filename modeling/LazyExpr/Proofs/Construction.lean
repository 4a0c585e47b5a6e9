/-
LazyExpr/Proofs/Construction.lean

A constructor takes the declared fields, each once, in any order.

The check of the fields is two scans, each in one direction: declared fields that are not
supplied, and supplied ones that are not declared or were supplied before.  That both find
nothing means that the supplied fields are a permutation of the declared ones
(`perm_fields_iff`).  What they find is counted by following the second scan: every supplied
field takes one from the declared fields that have not been seen yet, or is unexpected
(`length_unexpectedAfter`).

The fields of an instance are looked up in the order of the declaration.  This is a permutation
of what is supplied, name and expression together, and it is what sorting by the places of the
declaration comes to (`mergeSort_precedes`).
-/
import LazyExpr.Proofs.Invariant
import Mathlib.Data.List.Perm.Basic
import Mathlib.Data.List.Perm.Subperm
import Mathlib.Data.List.Nodup

namespace LazyExpr

namespace Variant

variable {v : Variant} {supplied seen : List Name}

/-! ### The two scans -/

theorem missing_eq : v.missing supplied = v.fields.filter (· ∉ supplied) := by
  rw [missing]
  congr 1
  funext f
  simp

theorem unexpectedAfter_cons (f : Name) (rest : List Name) :
    v.unexpectedAfter seen (f :: rest) =
      (if f ∉ v.fields ∨ f ∈ seen then [f] else []) ++ v.unexpectedAfter (f :: seen) rest := by
  rw [unexpectedAfter]
  by_cases h : f ∉ v.fields ∨ f ∈ seen
  · rw [if_pos h, if_pos (by simpa using h)]
    rfl
  · rw [if_neg h, if_neg (by simpa using h)]
    rfl

/-- The scan finds by what it has seen what can be found by the places: at each, what was seen
before it is what had been seen at the start and what is supplied before it. -/
theorem unexpectedAfter_eq : v.unexpectedAfter seen supplied =
    (supplied.zipIdx.filter fun f =>
      f.1 ∉ v.fields ∨ f.1 ∈ seen ∨ f.1 ∈ supplied.take f.2).map (·.1) := by
  induction supplied generalizing seen with
  | nil => rfl
  | cons f rest ih =>
    rw [unexpectedAfter_cons, ih, List.zipIdx_cons', List.filter_cons, List.filter_map]
    have hrest : ∀ g : Name × Nat, (g.1 ∉ v.fields ∨ g.1 ∈ f :: seen ∨ g.1 ∈ rest.take g.2) ↔
        (g.1 ∉ v.fields ∨ g.1 ∈ seen ∨ g.1 ∈ (f :: rest).take (g.2 + 1)) := by
      intro g
      rw [List.take_succ_cons, List.mem_cons, List.mem_cons]
      tauto
    simp only [hrest]
    by_cases hf : f ∉ v.fields ∨ f ∈ seen <;> simp [hf, Function.comp_def]

theorem unexpectedAfter_eq_nil_iff : v.unexpectedAfter seen supplied = [] ↔
    supplied.Nodup ∧ ∀ f ∈ supplied, f ∈ v.fields ∧ f ∉ seen := by
  induction supplied generalizing seen with
  | nil => simp [unexpectedAfter]
  | cons f rest ih =>
    have hhead : (if f ∉ v.fields ∨ f ∈ seen then [f] else []) = [] ↔ f ∈ v.fields ∧ f ∉ seen := by
      rw [ite_eq_right_iff, imp_iff_not (List.cons_ne_nil f []), not_or, not_not]
    have hrest : (∀ g ∈ rest, g ∈ v.fields ∧ g ∉ f :: seen) ↔
        f ∉ rest ∧ ∀ g ∈ rest, g ∈ v.fields ∧ g ∉ seen := by
      grind
    rw [unexpectedAfter_cons, List.append_eq_nil_iff, hhead, ih, hrest, List.nodup_cons,
      List.forall_mem_cons]
    tauto

/-! ### Counting -/

/-- Of the fields that have not been seen, one less is left if one of them is. -/
theorem length_filter_cons (hv : v.fields.Nodup) (f : Name) (seen : List Name) :
    (v.fields.filter (· ∉ seen)).length =
      (v.fields.filter (· ∉ f :: seen)).length + (if f ∉ v.fields ∨ f ∈ seen then 0 else 1) := by
  have herase : v.fields.filter (· ∉ f :: seen) = (v.fields.filter (· ∉ seen)).erase f := by
    rw [(hv.filter _).erase_eq_filter, List.filter_filter]
    exact List.filter_congr fun g _ => Bool.eq_iff_iff.2 (by simp)
  have hmem : f ∈ v.fields.filter (· ∉ seen) ↔ ¬ (f ∉ v.fields ∨ f ∈ seen) := by
    simp
  rw [herase]
  split
  · next h => rw [List.erase_of_not_mem (fun hf => hmem.1 hf h), Nat.add_zero]
  · next h => rw [List.length_erase_add_one (hmem.2 h)]

/-- What is supplied makes up for the fields that were left, but for what is unexpected. -/
theorem length_unexpectedAfter (hv : v.fields.Nodup) (seen supplied : List Name) :
    supplied.length + (v.fields.filter (fun f => f ∉ supplied ∧ f ∉ seen)).length =
      (v.fields.filter (· ∉ seen)).length + (v.unexpectedAfter seen supplied).length := by
  induction supplied generalizing seen with
  | nil => simp [unexpectedAfter]
  | cons f rest ih =>
    have hstep := length_filter_cons hv f seen
    have hrest := ih (f :: seen)
    have hsame : v.fields.filter (fun g => g ∉ f :: rest ∧ g ∉ seen) =
        v.fields.filter (fun g => g ∉ rest ∧ g ∉ f :: seen) :=
      List.filter_congr fun g _ => by
        simp only [List.mem_cons, not_or, decide_eq_decide]
        tauto
    rw [unexpectedAfter_cons, List.length_append, List.length_cons, hsame]
    by_cases hf : f ∉ v.fields ∨ f ∈ seen
    · rw [if_pos hf] at hstep ⊢
      rw [List.length_singleton]
      omega
    · rw [if_neg hf] at hstep ⊢
      rw [List.length_nil]
      omega

theorem length_supplied (hv : v.fields.Nodup) (supplied : List Name) :
    supplied.length + (v.missing supplied).length =
      v.fields.length + (v.unexpected supplied).length := by
  have h := length_unexpectedAfter hv [] supplied
  simpa [missing_eq, unexpected] using h

/-! ### The check -/

/-- Nothing is missing and nothing is unexpected exactly if the fields are the declared ones. -/
theorem perm_fields_iff (hv : v.fields.Nodup) :
    supplied.Perm v.fields ↔ v.missing supplied = [] ∧ v.unexpected supplied = [] := by
  rw [missing_eq, unexpected, unexpectedAfter_eq_nil_iff, List.filter_eq_nil_iff]
  constructor
  · intro h
    refine ⟨fun f hf => ?_, (h.nodup_iff).2 hv, fun f hf => ⟨h.mem_iff.1 hf, List.not_mem_nil⟩⟩
    simpa using h.mem_iff.2 hf
  · rintro ⟨hmissing, hnodup, hdeclared⟩
    refine (List.perm_ext_iff_of_nodup hnodup hv).2 fun f => ⟨fun hf => (hdeclared f hf).1, ?_⟩
    exact fun hf => by simpa using hmissing f hf

theorem checkFields_eq (names : Names) (type : Name) :
    v.checkFields names type supplied =
      if v.missing supplied = [] ∧ v.unexpected supplied = [] then .ok ()
      else .error (.constructorMismatch (names.text type) (names.text v.name)
        ((v.missing supplied).map names.text) ((v.unexpected supplied).map names.text)) := by
  simp [checkFields]

theorem checkFields_of_perm (hv : v.fields.Nodup) (h : supplied.Perm v.fields) (names : Names)
    (type : Name) : v.checkFields names type supplied = .ok () := by
  rw [checkFields_eq, if_pos ((perm_fields_iff hv).1 h)]

/-! ### The arrangement -/

section Arrangement

variable {α : Type} {inits : List (Name × α)}

theorem names_arrange_of_perm (hv : v.fields.Nodup) (h : (inits.map (·.1)).Perm v.fields) :
    (v.arrange inits).map (·.1) = v.fields :=
  names_arrange (checkFields_of_perm hv h .initial v.name)

/-- Arranging changes the order alone. -/
theorem arrange_perm (hv : v.fields.Nodup) (h : (inits.map (·.1)).Perm v.fields) :
    (v.arrange inits).Perm inits := by
  have hnames := names_arrange_of_perm hv h
  have hnodup : (v.arrange inits).Nodup := .of_map (·.1) (hnames ▸ hv)
  have hsubset : v.arrange inits ⊆ inits := by
    intro f hf
    obtain ⟨name, -, hfound⟩ := List.mem_filterMap.1 hf
    exact List.mem_of_find?_eq_some hfound
  have hlength : inits.length = (v.arrange inits).length := by
    calc inits.length = (inits.map (·.1)).length := (List.length_map _).symm
      _ = ((v.arrange inits).map (·.1)).length := by rw [h.length_eq, hnames]
      _ = (v.arrange inits).length := List.length_map _
  exact (List.subperm_of_subset hnodup hsubset).perm_of_length_le (Nat.le_of_eq hlength)

/-- The first field is declared before the second, or in the same place. -/
def precedes (v : Variant) (f g : Name × α) : Bool :=
  (compare (v.position? f.1) (v.position? g.1)).isLE

theorem position?_getElem (hv : v.fields.Nodup) {i : Nat} (hi : i < v.fields.length) :
    v.position? v.fields[i] = some i := by
  refine List.idxOf?_eq_some_iff.2 ⟨hi, rfl, fun j hj heq => ?_⟩
  exact Nat.ne_of_lt hj (hv.getElem_inj_iff.1 heq)

theorem pairwise_arrange (hv : v.fields.Nodup) (h : (inits.map (·.1)).Perm v.fields) :
    (v.arrange inits).Pairwise fun f g => v.precedes f g = true := by
  have hfields : v.fields.Pairwise fun f g =>
      (compare (v.position? f) (v.position? g)).isLE = true := by
    rw [List.pairwise_iff_getElem]
    intro i j hi hj hij
    rw [position?_getElem hv hi, position?_getElem hv hj]
    exact Nat.isLE_compare.2 (Nat.le_of_lt hij)
  rw [← names_arrange_of_perm hv h, List.pairwise_map] at hfields
  exact hfields

/-- Fields that stand in the same place of the declaration have the same name. -/
theorem eq_of_position?_eq {f g : Name} (hf : f ∈ v.fields)
    (h : v.position? f = v.position? g) : f = g := by
  obtain ⟨i, hi⟩ := Option.isSome_iff_exists.1 (List.isSome_idxOf?.2 hf)
  obtain ⟨_, hget, -⟩ := List.idxOf?_eq_some_iff.1 hi
  obtain ⟨_, hget', -⟩ := List.idxOf?_eq_some_iff.1 (h.symm.trans hi)
  exact hget.symm.trans hget'

/-- Sorting by the places of the declaration comes to the same. -/
theorem mergeSort_precedes (hv : v.fields.Nodup) (h : (inits.map (·.1)).Perm v.fields) :
    inits.mergeSort v.precedes = v.arrange inits := by
  have hperm := arrange_perm hv h
  refine List.Perm.eq_of_pairwise ?_ (List.pairwise_mergeSort ?_ ?_ inits)
    (pairwise_arrange hv h) ((List.mergeSort_perm inits _).trans hperm.symm)
  · -- what precedes each other is one field, and there is one of each name
    intro f g hf hg hfg hgf
    have hmem : f ∈ inits := (List.mergeSort_perm inits _).mem_iff.1 hf
    have hplace := Std.LawfulEqCmp.eq_of_compare (Std.OrientedCmp.isLE_antisymm hfg hgf)
    have hname := eq_of_position?_eq (h.mem_iff.1 (List.mem_map_of_mem hmem)) hplace
    exact List.inj_on_of_nodup_map (h.nodup_iff.2 hv) hmem (hperm.mem_iff.1 hg) hname
  · exact fun _ _ _ => Std.TransCmp.isLE_trans
  · intro f g
    have hswap : compare (v.position? g.1) (v.position? f.1) =
        (compare (v.position? f.1) (v.position? g.1)).swap := Std.OrientedCmp.eq_swap
    rw [precedes, precedes, hswap]
    cases compare (v.position? f.1) (v.position? g.1) <;> rfl

end Arrangement

end Variant

/-! ### Construction -/

namespace Context

variable {c : Context} {type variant : Name} {inits : List (Name × NodeId)} {m : Machine}
  {v : Variant}

theorem construct_of_perm (hv : v.fields.Nodup)
    (hfound : m.types.variant c.program.names type variant = .ok v)
    (h : (inits.map (·.1)).Perm v.fields) :
    c.construct type variant inits m = Eval.newInstance ⟨type, variant,
      v.arrange (inits.map fun f => (f.1, .deferred f.2 m.scope))⟩ m := by
  rw [construct_apply, hfound]
  simp only [Variant.checkFields_of_perm hv h]

theorem perm_of_construct (hv : v.fields.Nodup)
    (hfound : m.types.variant c.program.names type variant = .ok v) {value : Value} {m' : Machine}
    (h : c.construct type variant inits m = .ok value m') : (inits.map (·.1)).Perm v.fields := by
  rw [construct_apply, hfound] at h
  by_contra hperm
  rw [Variant.perm_fields_iff hv] at hperm
  simp only [Variant.checkFields_eq, if_neg hperm] at h
  cases h

end Context

/-- **The check of a constructor's fields is exact.**  It passes permutations of the declared fields,
and otherwise its fault names what is not supplied and what is supplied but undeclared or supplied
before.  An instance has the supplied expressions under their names, suspended, in the order of the
declaration. -/
theorem constructor_fields_exact (v : Variant) (hv : v.fields.Nodup) :
    (∀ (names : Names) (type : Name) (supplied : List Name),
      let missing := v.fields.filter (· ∉ supplied)
      let unexpected := (supplied.zipIdx.filter fun f =>
        f.1 ∉ v.fields ∨ f.1 ∈ supplied.take f.2).map (·.1)
      (v.checkFields names type supplied = .ok () ↔ supplied.Perm v.fields) ∧
      (¬ supplied.Perm v.fields → v.checkFields names type supplied =
        .error (.constructorMismatch (names.text type) (names.text v.name)
          (missing.map names.text) (unexpected.map names.text))) ∧
      supplied.length = v.fields.length - missing.length + unexpected.length) ∧
    ∀ (c : Context) (type variant : Name) (inits : List (Name × NodeId)) (m : Machine),
      m.types.variant c.program.names type variant = .ok v →
      let thunks := inits.map fun f => (f.1, Thunk.deferred f.2 m.scope)
      ((∃ value m', c.construct type variant inits m = .ok value m') ↔
        (inits.map (·.1)).Perm v.fields) ∧
      ∀ value m', c.construct type variant inits m = .ok value m' →
        ∃ id fields, value = .data id ∧ m'.store.instanceAt id = ⟨type, variant, fields⟩ ∧
          fields.map (·.1) = v.fields ∧ fields.Perm thunks ∧
          fields = thunks.mergeSort v.precedes := by
  constructor
  · intro names type supplied missing unexpected
    have hmissing : v.missing supplied = missing := Variant.missing_eq
    have hunexpected : v.unexpected supplied = unexpected := by
      simp [Variant.unexpected, Variant.unexpectedAfter_eq, unexpected]
    have hlength := Variant.length_supplied hv supplied
    have hle : missing.length ≤ v.fields.length := List.length_filter_le _ _
    rw [hmissing, hunexpected] at hlength
    rw [Variant.checkFields_eq, Variant.perm_fields_iff hv, hmissing, hunexpected]
    exact ⟨by simp, fun h => if_neg h, by omega⟩
  · intro c type variant inits m hfound thunks
    have hthunks : thunks.map (·.1) = inits.map (·.1) := by simp [thunks, Function.comp_def]
    refine ⟨⟨fun ⟨_, _, h⟩ => Context.perm_of_construct hv hfound h, fun h => ?_⟩, fun value m' h => ?_⟩
    · exact ⟨_, _, Context.construct_of_perm hv hfound h⟩
    · have hperm := Context.perm_of_construct hv hfound h
      rw [Context.construct_of_perm hv hfound hperm] at h
      cases h
      rw [← hthunks] at hperm
      refine ⟨_, v.arrange thunks, rfl, ?_, Variant.names_arrange_of_perm hv hperm,
        Variant.arrange_perm hv hperm, (Variant.mergeSort_precedes hv hperm).symm⟩
      exact (m.store.instanceAt_addInstance _ _).trans (if_pos rfl)

/-- A field that is missing beside one that is undeclared and one that is supplied twice, and the
declared fields in another order. -/
theorem fields_out_of_order :
    let names := ["T", "V", "a", "b", "c"].foldl (fun names text => (names.intern text).2) Names.initial
    let v : Variant := ⟨⟨2⟩, [⟨3⟩, ⟨4⟩]⟩
    let c : Context := ⟨⟨#[], #[], names⟩, 0, fun _ => pure .void, fun _ => pure .void⟩
    let m : Machine := { (default : Machine) with types := ⟨[⟨⟨1⟩, [v]⟩]⟩ }
    v.fields.Nodup ∧
      v.checkFields names ⟨1⟩ [⟨4⟩, ⟨5⟩, ⟨4⟩] =
        .error (.constructorMismatch "T" "V" ["a"] ["c", "b"]) ∧
      ∃ value m', c.construct ⟨1⟩ ⟨2⟩ [(⟨4⟩, ⟨0⟩), (⟨3⟩, ⟨1⟩)] m = .ok value m' ∧
        ∃ id fields, value = .data id ∧ m'.store.instanceAt id = ⟨⟨1⟩, ⟨2⟩, fields⟩ ∧
          fields.map (·.1) = [⟨3⟩, ⟨4⟩] ∧
          fields.Perm [(⟨4⟩, .deferred ⟨0⟩ m.scope), (⟨3⟩, .deferred ⟨1⟩ m.scope)] := by
  intro names v c m
  have hv : v.fields.Nodup := by decide
  obtain ⟨hcheck, hconstruct⟩ := constructor_fields_exact v hv
  obtain ⟨-, hfault, -⟩ := hcheck names ⟨1⟩ [⟨4⟩, ⟨5⟩, ⟨4⟩]
  obtain ⟨hiff, hstored⟩ := hconstruct c ⟨1⟩ ⟨2⟩ [(⟨4⟩, ⟨0⟩), (⟨3⟩, ⟨1⟩)] m rfl
  obtain ⟨value, m', hok⟩ := hiff.2 (by decide)
  obtain ⟨id, fields, hvalue, hinstance, hnames, hperm, -⟩ := hstored value m' hok
  refine ⟨hv, (hfault (by decide)).trans ?_, value, m', hok, id, fields, hvalue, hinstance, hnames,
    hperm⟩
  decide

end LazyExpr
