/-
LazyExpr/Proofs/Declaration.lean

The first valid declaration of a type stands.

A declaration is looked through for a defect from left to right; there is none exactly if
the declaration is valid (`DataType.defect?_eq_none_iff`).  All that a call can do to the
declared types is to add a valid declaration at the end, and that only if there is none of
its name (`Types.after_eq`).  From this follows, for one call and then for any number of
them, what is found under a name: the first declaration of that name that is valid.
-/
import LazyExpr.Proofs.Invariant
import Mathlib.Data.Finset.Card
import Mathlib.Data.Finset.Dedup

namespace LazyExpr

/-! ### Valid declarations -/

namespace DataType

/-- There is a variant, no two variants have the same name, and no variant has a field
twice. -/
structure Valid (t : DataType) : Prop where
  variants : t.variants ≠ []
  names : (t.variants.map (·.name)).Nodup
  fields : ∀ v ∈ t.variants, v.fields.Nodup

theorem valid_iff {t : DataType} : t.Valid ↔
    t.variants ≠ [] ∧ (t.variants.map (·.name)).Nodup ∧ ∀ v ∈ t.variants, v.fields.Nodup :=
  ⟨fun h => ⟨h.variants, h.names, h.fields⟩, fun h => ⟨h.1, h.2.1, h.2.2⟩⟩

instance (t : DataType) : Decidable t.Valid := decidable_of_iff' _ valid_iff

theorem firstRepeated_eq_none_iff {seen ns : List Name} :
    firstRepeated seen ns = none ↔ ns.Nodup ∧ ∀ n ∈ ns, n ∉ seen := by
  refine ⟨firstRepeated_eq_none, fun h => ?_⟩
  induction ns generalizing seen with
  | nil => rfl
  | cons n rest ih =>
    obtain ⟨hnodup, hseen⟩ := h
    obtain ⟨hn, hrest⟩ := List.nodup_cons.1 hnodup
    rw [firstRepeated, if_neg (by simpa using hseen n List.mem_cons_self)]
    refine ih ⟨hrest, fun m hm hmem => ?_⟩
    rcases List.mem_cons.1 hmem with rfl | hmem
    · exact hn hm
    · exact hseen m (List.mem_cons_of_mem n hm) hmem

/-- The names of the variants and the fields of each are looked through in the same way. -/
theorem variantsDefect?_eq_none_iff {seen : List Name} {vs : List Variant} :
    variantsDefect? seen vs = none ↔ firstRepeated seen (vs.map (·.name)) = none ∧
      ∀ v ∈ vs, firstRepeated [] v.fields = none := by
  induction vs generalizing seen with
  | nil => simp [variantsDefect?, firstRepeated]
  | cons v rest ih =>
    rw [variantsDefect?, List.map_cons, firstRepeated, List.forall_mem_cons]
    split
    · simp
    · cases firstRepeated [] v.fields with
      | none => simp [ih]
      | some f => simp

theorem defect?_eq_none_iff {t : DataType} : t.defect? = none ↔ t.Valid := by
  rw [defect?, valid_iff, ← List.isEmpty_eq_false_iff]
  cases t.variants.isEmpty with
  | true => simp
  | false => simp [variantsDefect?_eq_none_iff, firstRepeated_eq_none_iff]

end DataType

/-! ### One call -/

namespace Types

/-- What a call comes to. -/
theorem declare_cases (ts : Types) (names : Names) (t : DataType) :
    (¬ t.Valid ∧ ∃ cause, ts.declare names t = .error cause) ∨
    (t.Valid ∧ ts.find? t.name = none ∧ ts.declare names t = .ok ⟨ts.entries ++ [t]⟩) ∨
    (t.Valid ∧ ts.find? t.name = some t ∧ ts.declare names t = .ok ts) ∨
    (t.Valid ∧ (∃ known, ts.find? t.name = some known ∧ known ≠ t) ∧
      ∃ cause, ts.declare names t = .error cause) := by
  unfold declare
  rw [← DataType.defect?_eq_none_iff]
  cases t.defect? with
  | some d => exact .inl ⟨Option.some_ne_none d, _, rfl⟩
  | none =>
    cases hfound : ts.find? t.name with
    | none => exact .inr (.inl ⟨rfl, rfl, rfl⟩)
    | some known =>
      by_cases hknown : known = t
      · subst hknown
        exact .inr (.inr (.inl ⟨rfl, rfl, if_pos rfl⟩))
      · exact .inr (.inr (.inr ⟨rfl, ⟨known, rfl, hknown⟩, _, if_neg hknown⟩))

/-- A call succeeds exactly if the declaration is valid and is the one that is there, if any. -/
theorem exists_declare_eq_ok_iff {ts : Types} {names : Names} {t : DataType} :
    (∃ ts', ts.declare names t = .ok ts') ↔
      t.Valid ∧ ∀ known, ts.find? t.name = some known → known = t := by
  obtain ⟨hvalid, cause, hcall⟩ | ⟨hvalid, hfound, hcall⟩ | ⟨hvalid, hfound, hcall⟩ |
    ⟨hvalid, ⟨known, hfound, hknown⟩, cause, hcall⟩ := declare_cases ts names t
  · simp [hcall, hvalid]
  · simp [hcall, hvalid, hfound]
  · simp [hcall, hvalid, hfound]
  · simp [hcall, hfound, hknown]

/-- The declared types after a call, which may have been refused. -/
def after (ts : Types) (names : Names) (t : DataType) : Types :=
  match ts.declare names t with
  | .ok ts' => ts'
  | .error _ => ts

/-- All that a call can do to the declared types. -/
theorem after_eq (ts : Types) (names : Names) (t : DataType) :
    ts.after names t =
      if t.Valid ∧ ts.find? t.name = none then ⟨ts.entries ++ [t]⟩ else ts := by
  rw [after]
  obtain ⟨hvalid, cause, hcall⟩ | ⟨hvalid, hfound, hcall⟩ | ⟨hvalid, hfound, hcall⟩ |
    ⟨hvalid, ⟨known, hfound, hknown⟩, cause, hcall⟩ := declare_cases ts names t
  · simp [hcall, hvalid]
  · simp [hcall, hvalid, hfound]
  · simp [hcall, hfound]
  · simp [hcall, hfound]

/-- A valid declaration comes behind what was found before. -/
theorem find?_after (ts : Types) (names : Names) (t : DataType) (name : Name) :
    (ts.after names t).find? name =
      (ts.find? name).or ([t].find? fun t => t.name = name ∧ t.Valid) := by
  rw [after_eq]
  by_cases hvalid : t.Valid
  · by_cases hname : t.name = name
    · subst hname
      cases hfound : ts.find? t.name with
      | some known => simp [hfound]
      | none =>
        rw [find?] at hfound
        simp [find?, hvalid, hfound]
    · cases ts.find? t.name <;> simp [find?, hvalid, hname]
  · simp [hvalid]

/-- No two of the declared types have the same name after a call, if that was so before. -/
theorem nodup_after {ts : Types} (h : (ts.entries.map (·.name)).Nodup) (names : Names)
    (t : DataType) : ((ts.after names t).entries.map (·.name)).Nodup := by
  rw [after_eq]
  split
  · next hnew =>
    have hfresh : t.name ∉ ts.entries.map (·.name) := by
      simpa [find?] using hnew.2
    rw [List.map_append]
    exact List.nodup_append.2 ⟨h, List.nodup_singleton _, by simpa using hfresh⟩
  · exact h

/-! ### Any number of calls -/

/-- The declared types after a sequence of calls, when none were declared before. -/
def afterAll (calls : List (Names × DataType)) : Types :=
  calls.foldl (fun ts call => ts.after call.1 call.2) empty

theorem afterAll_append (calls : List (Names × DataType)) (names : Names) (t : DataType) :
    afterAll (calls ++ [(names, t)]) = (afterAll calls).after names t := by
  simp [afterAll]

theorem find?_afterAll (calls : List (Names × DataType)) (name : Name) :
    (afterAll calls).find? name =
      (calls.map (·.2)).find? fun t => t.name = name ∧ t.Valid := by
  induction calls using List.reverseRecOn with
  | nil => rfl
  | append_singleton calls call ih =>
    rw [afterAll_append, find?_after, ih, List.map_append, List.find?_append]
    rfl

theorem nodup_afterAll (calls : List (Names × DataType)) :
    ((afterAll calls).entries.map (·.name)).Nodup := by
  induction calls using List.reverseRecOn with
  | nil => exact List.nodup_nil
  | append_singleton calls call ih =>
    rw [afterAll_append]
    exact nodup_after ih call.1 call.2

/-- There is a type for each name that has been validly declared. -/
theorem size_afterAll (calls : List (Names × DataType)) :
    (afterAll calls).size =
      (((calls.map (·.2)).filter (·.Valid)).map (·.name)).toFinset.card := by
  have hnames : ((afterAll calls).entries.map (·.name)).toFinset =
      (((calls.map (·.2)).filter (·.Valid)).map (·.name)).toFinset := by
    ext name
    have hfound := congrArg Option.isSome (find?_afterAll calls name)
    rw [find?, Bool.eq_iff_iff, List.find?_isSome, List.find?_isSome] at hfound
    rw [List.mem_toFinset, List.mem_toFinset]
    simpa [and_comm, and_assoc] using hfound
  rw [← hnames, List.toFinset_card_of_nodup (nodup_afterAll calls), List.length_map]
  rfl

end Types

/-- **The first valid declaration wins.**  After any calls the entry of a name is its first valid
declaration, and there are no other entries.  The next call succeeds exactly if its declaration is
valid and the entry of its name, if there is one, is the same; what it does is done to the types of
the machine, and nothing is done by a call that fails. -/
theorem first_valid_declaration_wins (calls : List (Names × DataType)) :
    let ts := Types.afterAll calls
    (∀ name, ts.find? name = (calls.map (·.2)).find? fun t => t.name = name ∧ t.Valid) ∧
    ts.size = (((calls.map (·.2)).filter (·.Valid)).map (·.name)).toFinset.card ∧
    ∀ (names : Names) (t : DataType),
      ((∃ ts', ts.declare names t = .ok ts') ↔
        t.Valid ∧ ∀ known, ts.find? t.name = some known → known = t) ∧
      (∀ cause, ts.declare names t = .error cause → Types.afterAll (calls ++ [(names, t)]) = ts) ∧
      ∀ (c : Context) (m : Machine), c.program.names = names → m.types = ts →
        (∀ ts', ts.declare names t = .ok ts' → Types.afterAll (calls ++ [(names, t)]) = ts' ∧
          c.declare t.name t.variants m = .ok .void { m with types := ts' }) ∧
        ∀ cause, ts.declare names t = .error cause →
          c.declare t.name t.variants m = .error (.fault (.ofCause cause)) m := by
  intro ts
  refine ⟨Types.find?_afterAll calls, Types.size_afterAll calls, fun names t =>
    ⟨Types.exists_declare_eq_ok_iff, fun cause hcall => ?_, fun c m hnames hm =>
      ⟨fun ts' hcall => ⟨?_, ?_⟩, fun cause hcall => ?_⟩⟩⟩
  · rw [Types.afterAll_append, Types.after, hcall]
  · rw [Types.afterAll_append, Types.after, hcall]
  · rw [Context.declare_apply, hnames, hm, hcall]
  · rw [Context.declare_apply, hnames, hm, hcall]

/-- The first declaration of the type has a field twice, the second stands, and the third, in which
the fields have changed places, is refused. -/
theorem swapped_fields_refused :
    let type (fields : List Name) : DataType := ⟨⟨1⟩, [⟨⟨2⟩, fields⟩]⟩
    let ts := Types.afterAll [(.initial, type [⟨3⟩, ⟨3⟩]), (.initial, type [⟨3⟩, ⟨4⟩])]
    let c : Context := ⟨.empty, 0, fun _ => pure .void, fun _ => pure .void⟩
    let m : Machine := { (default : Machine) with types := ts }
    ts.find? ⟨1⟩ = some (type [⟨3⟩, ⟨4⟩]) ∧ ts.size = 1 ∧
      (∃ ts', ts.declare .initial (type [⟨3⟩, ⟨4⟩]) = .ok ts') ∧
      ∃ cause, ts.declare .initial (type [⟨4⟩, ⟨3⟩]) = .error cause ∧
        c.declare ⟨1⟩ [⟨⟨2⟩, [⟨4⟩, ⟨3⟩]⟩] m = .error (.fault (.ofCause cause)) m := by
  intro type ts c m
  obtain ⟨hfind, hsize, hnext⟩ := first_valid_declaration_wins
    [(.initial, type [⟨3⟩, ⟨3⟩]), (.initial, type [⟨3⟩, ⟨4⟩])]
  obtain ⟨-, -, hmachine⟩ := hnext .initial (type [⟨4⟩, ⟨3⟩])
  have hcall : ts.declare .initial (type [⟨4⟩, ⟨3⟩]) = .error (.invalidDeclaration ""
      "the type is already declared with different variants") := by decide
  exact ⟨hfind ⟨1⟩, hsize, (hnext .initial (type [⟨3⟩, ⟨4⟩])).1.2 (by decide), _, hcall,
    (hmachine c m rfl rfl).2 _ hcall⟩

end LazyExpr
