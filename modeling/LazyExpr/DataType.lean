/-
LazyExpr/DataType.lean

Declared data types: variants with named fields, the conditions on a
declaration, and the check of a constructor's fields.

A type is declared once.  The same declaration may be repeated; a different one
under the same name is refused.
-/
import LazyExpr.Fault
import LazyExpr.Name

namespace LazyExpr

/-! ### Variants -/

/-- A variant and its field names, in the order of the declaration. -/
structure Variant where
  name : Name
  fields : List Name
deriving DecidableEq, Inhabited, Repr

namespace Variant

/-- The place of a field in the declaration. -/
def position? (v : Variant) (field : Name) : Option Nat := v.fields.idxOf? field

/-- The declared fields that are not supplied. -/
def missing (v : Variant) (supplied : List Name) : List Name :=
  v.fields.filter fun f => !supplied.contains f

/-- The supplied fields that are not declared or were supplied before; `seen`
holds those before. -/
def unexpectedAfter (v : Variant) (seen : List Name) : List Name → List Name
  | [] => []
  | f :: rest =>
    let later := v.unexpectedAfter (f :: seen) rest
    if !v.fields.contains f || seen.contains f then f :: later else later

def unexpected (v : Variant) (supplied : List Name) : List Name :=
  v.unexpectedAfter [] supplied

/-- Succeeds when the supplied fields are the declared ones, each once, in any
order. -/
def checkFields (v : Variant) (names : Names) (type : Name) (supplied : List Name) :
    Except Cause Unit :=
  let missing := v.missing supplied
  let unexpected := v.unexpected supplied
  if missing.isEmpty && unexpected.isEmpty then .ok ()
  else .error (.constructorMismatch (names.text type) (names.text v.name)
    (missing.map names.text) (unexpected.map names.text))

/-- What is supplied for each field, in the order of the declaration. -/
def arrange {α : Type} (v : Variant) (supplied : List (Name × α)) : List (Name × α) :=
  v.fields.filterMap fun f => supplied.find? (·.1 == f)

/-- Fields that pass the check are arranged into exactly the declared ones. -/
theorem names_arrange {α : Type} {v : Variant} {names : Names} {type : Name}
    {supplied : List (Name × α)}
    (h : v.checkFields names type (supplied.map (·.1)) = .ok ()) :
    (v.arrange supplied).map (·.1) = v.fields := by
  have hmissing : v.missing (supplied.map (·.1)) = [] := by
    unfold checkFields at h
    simp only at h
    split at h
    · next hempty => simpa using (Bool.and_eq_true_iff.1 hempty).1
    · cases h
  have hfound : ∀ f ∈ v.fields, ∃ t, supplied.find? (·.1 == f) = some (f, t) := by
    intro f hf
    have hmem := List.filter_eq_nil_iff.1 hmissing f hf
    have hsome : (supplied.find? (·.1 == f)).isSome := by simpa using hmem
    obtain ⟨⟨g, t⟩, hg⟩ := Option.isSome_iff_exists.1 hsome
    obtain rfl : g = f := by simpa using List.find?_some hg
    exact ⟨t, hg⟩
  unfold arrange
  generalize v.fields = fs at hfound
  induction fs with
  | nil => rfl
  | cons f rest ih =>
    obtain ⟨t, ht⟩ := hfound f List.mem_cons_self
    have hrest := ih fun g hg => hfound g (List.mem_cons_of_mem _ hg)
    simp only [List.filterMap_cons, ht, List.map_cons, hrest]

end Variant

/-! ### Types -/

/-- A type and its variants. -/
structure DataType where
  name : Name
  variants : List Variant
deriving DecidableEq, Inhabited, Repr

namespace DataType

def variant? (t : DataType) (name : Name) : Option Variant :=
  t.variants.find? (·.name == name)

/-- What is wrong with a declaration. -/
inductive Defect where
  | noVariants
  | repeatedVariant (variant : Name)
  | repeatedField (field variant : Name)
deriving DecidableEq, Repr

/-- The text shown for a defect. -/
def Defect.message (names : Names) : Defect → String
  | noVariants => "a type needs at least one variant"
  | repeatedVariant v => "variant " ++ names.text v ++ " is declared twice"
  | repeatedField f v =>
    "field " ++ names.text f ++ " is declared twice in variant " ++ names.text v

/-- The first name that is in `seen` or stands earlier in the list. -/
def firstRepeated (seen : List Name) : List Name → Option Name
  | [] => none
  | n :: rest => if seen.contains n then some n else firstRepeated (n :: seen) rest

theorem firstRepeated_eq_none {seen ns : List Name} (h : firstRepeated seen ns = none) :
    ns.Nodup ∧ ∀ n ∈ ns, n ∉ seen := by
  induction ns generalizing seen with
  | nil => simp
  | cons n rest ih =>
    unfold firstRepeated at h
    split at h
    · cases h
    · next hn =>
      obtain ⟨hnodup, hseen⟩ := ih h
      have hrest : n ∉ rest := fun hmem => hseen n hmem List.mem_cons_self
      refine ⟨List.nodup_cons.2 ⟨hrest, hnodup⟩, ?_⟩
      intro m hm
      rcases List.mem_cons.1 hm with rfl | hm
      · simpa using hn
      · exact fun hmem => hseen m hm (List.mem_cons_of_mem n hmem)

/-- The first defect of a list of variants after those named in `seen`. -/
def variantsDefect? (seen : List Name) : List Variant → Option Defect
  | [] => none
  | v :: rest =>
    if seen.contains v.name then some (.repeatedVariant v.name)
    else match firstRepeated [] v.fields with
      | some f => some (.repeatedField f v.name)
      | none => variantsDefect? (v.name :: seen) rest

/-- The first defect of a declaration. -/
def defect? (t : DataType) : Option Defect :=
  if t.variants.isEmpty then some .noVariants else variantsDefect? [] t.variants

/-- A variant of a type without defect has no repeated field. -/
theorem nodup_fields {t : DataType} (h : t.defect? = none) {v : Variant} (hv : v ∈ t.variants) :
    v.fields.Nodup := by
  have go : ∀ (seen : List Name) (vs : List Variant), variantsDefect? seen vs = none →
      v ∈ vs → v.fields.Nodup := by
    intro seen vs hvs hmem
    induction vs generalizing seen with
    | nil => cases hmem
    | cons w rest ih =>
      unfold variantsDefect? at hvs
      split at hvs
      · cases hvs
      · split at hvs
        · cases hvs
        · next hw =>
          rcases List.mem_cons.1 hmem with rfl | hmem
          · exact (firstRepeated_eq_none hw).1
          · exact ih _ hvs hmem
  unfold defect? at h
  split at h
  · cases h
  · exact go _ _ h hv

end DataType

/-! ### The declared types -/

/-- The types declared so far. -/
structure Types where
  entries : List DataType
deriving DecidableEq, Inhabited, Repr

namespace Types

def empty : Types := ⟨[]⟩

def size (ts : Types) : Nat := ts.entries.length

def find? (ts : Types) (name : Name) : Option DataType :=
  ts.entries.find? (·.name == name)

def contains (ts : Types) (name : Name) : Bool := (ts.find? name).isSome

/-- Declare a type.  Repeating a declaration changes nothing. -/
def declare (ts : Types) (names : Names) (t : DataType) : Except Cause Types :=
  match t.defect? with
  | some d => .error (.invalidDeclaration (names.text t.name) (d.message names))
  | none =>
    match ts.find? t.name with
    | none => .ok ⟨ts.entries ++ [t]⟩
    | some known =>
      if known = t then .ok ts
      else .error (.invalidDeclaration (names.text t.name)
        "the type is already declared with different variants")

/-- A declaration that succeeds adds a type without defect, or nothing, and what was
declared before is found as before. -/
theorem declare_eq_ok {ts ts' : Types} {names : Names} {t : DataType}
    (h : ts.declare names t = .ok ts') :
    (∀ u ∈ ts'.entries, u ∈ ts.entries ∨ u.defect? = none) ∧
      ∀ name u, ts.find? name = some u → ts'.find? name = some u := by
  unfold declare at h
  split at h
  · cases h
  · next hdefect =>
    split at h
    · cases h
      refine ⟨fun u hu => ?_, fun name u hu => ?_⟩
      · rcases List.mem_append.1 hu with hu | hu
        · exact .inl hu
        · obtain rfl := List.mem_singleton.1 hu
          exact .inr hdefect
      · unfold find? at hu ⊢
        rw [List.find?_append, hu]
        rfl
    · split at h
      · cases h
        exact ⟨fun u hu => .inl hu, fun name u hu => hu⟩
      · cases h

/-- After a declaration there is no other type than before, except the declared one. -/
theorem mem_of_declare {ts ts' : Types} {names : Names} {t u : DataType}
    (h : ts.declare names t = .ok ts') (hu : u ∈ ts'.entries) : u ∈ ts.entries ∨ u = t := by
  unfold declare at h
  split at h
  · cases h
  · split at h
    · cases h
      exact (List.mem_append.1 hu).imp_right List.mem_singleton.1
    · split at h
      · cases h
        exact .inl hu
      · cases h

/-- A variant of a declared type. -/
def variant (ts : Types) (names : Names) (type variant : Name) : Except Cause Variant :=
  match ts.find? type with
  | none => .error (.undefinedType (names.text type))
  | some t =>
    match t.variant? variant with
    | none => .error (.undefinedVariant (names.text type) (names.text variant))
    | some v => .ok v

theorem variant_eq_ok {ts : Types} {names : Names} {type name : Name} {v : Variant}
    (h : ts.variant names type name = .ok v) :
    ∃ t, ts.find? type = some t ∧ t.variant? name = some v := by
  unfold variant at h
  split at h
  · cases h
  · next t ht =>
    split at h
    · cases h
    · next hv =>
      cases h
      exact ⟨t, ht, hv⟩

end Types

end LazyExpr
