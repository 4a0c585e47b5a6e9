/-
LazyExpr/Arena.lean

Flat storage for programs.

An arena holds a program without nested lists.  The lists that a node mentions,
arguments, elements, parameters, fields of a constructor and declared variants, stand
in tables that all nodes share, and the node has the place of its list, a slice of
the table.  Tables only grow at the end, so a slice that fits goes on to be read as
before.  That all slices of an arena fit is a part of it.

To read all slices of an arena is to get back a program (`Arena.program`).  What is
added to an arena is added to that program: an arena is a storage.
-/
import LazyExpr.Program

namespace LazyExpr

/-! ### Slices -/

/-- A run of entries in a table. -/
structure Slice where
  start : Nat
  length : Nat
deriving DecidableEq, Inhabited, Repr

namespace Slice

variable {α : Type}

/-- The entries of a slice. -/
def read (s : Slice) (t : Array α) : List α := (t.toList.drop s.start).take s.length

/-- The table has all entries of the slice. -/
def Fits (s : Slice) (t : Array α) : Prop := s.start + s.length ≤ t.size

instance (s : Slice) (t : Array α) : Decidable (s.Fits t) := inferInstanceAs (Decidable (_ ≤ _))

/-- Put entries at the end of a table. -/
def alloc (t : Array α) (xs : List α) : Slice × Array α :=
  (⟨t.size, xs.length⟩, t ++ xs.toArray)

theorem fits_alloc (t : Array α) (xs : List α) : (alloc t xs).1.Fits (alloc t xs).2 := by
  simp [alloc, Fits]

/-- What was put at the end of a table is read from there. -/
theorem read_alloc (t : Array α) (xs : List α) : (alloc t xs).1.read (alloc t xs).2 = xs := by
  simp [alloc, read]

/-- One table begins with what is in another. -/
def Begins (t u : Array α) : Prop := ∃ xs : List α, u = t ++ xs.toArray

theorem Begins.refl (t : Array α) : Begins t t := ⟨[], by simp⟩

theorem Begins.trans {t u v : Array α} (h : Begins t u) (h' : Begins u v) : Begins t v := by
  obtain ⟨xs, rfl⟩ := h
  obtain ⟨ys, rfl⟩ := h'
  exact ⟨xs ++ ys, by simp⟩

theorem begins_alloc (t : Array α) (xs : List α) : Begins t (alloc t xs).2 := ⟨xs, rfl⟩

theorem Begins.fits {s : Slice} {t u : Array α} (h : Begins t u) (hs : s.Fits t) : s.Fits u := by
  obtain ⟨xs, rfl⟩ := h
  rw [Fits] at hs ⊢
  rw [Array.size_append]
  exact Nat.le_add_right_of_le hs

/-- A slice that fits is read as before when the table grows. -/
theorem Begins.read_eq {s : Slice} {t u : Array α} (h : Begins t u) (hs : s.Fits t) :
    s.read u = s.read t := by
  obtain ⟨xs, rfl⟩ := h
  have hstart : s.start ≤ t.toList.length := by
    rw [Array.length_toList]
    exact Nat.le_of_add_right_le hs
  have hlength : s.length ≤ (t.toList.drop s.start).length := by
    rw [List.length_drop, Array.length_toList]
    exact Nat.le_sub_of_add_le' hs
  rw [read, read, Array.toList_append, List.drop_append_of_le_length hstart,
    List.take_append_of_le_length hlength]

end Slice

/-! ### Flat nodes -/

/-- A declared variant, its field names in a table. -/
structure FlatVariant where
  name : Name
  fields : Slice
deriving DecidableEq, Inhabited, Repr

/-- What a node is, its lists in tables. -/
inductive FlatKind where
  | number (id : NumberId)
  | bool (b : Bool)
  | char (c : Char)
  | text (content : Name)
  | void
  | ident (name : Name)
  | assign (name : Name) (value : NodeId) (mutability : Mutability)
  | seq (statements : Slice) (result : NodeId)
  | ifElse (condition whenTrue whenFalse : NodeId)
  | lambda (name : Name) (params : Slice) (body : NodeId)
  | call (callee : NodeId) (args : Slice)
  | binary (op : BinaryOp) (left right : NodeId)
  | list (items : Slice)
  | index (source position : NodeId)
  | indexAssign (target : Name) (position value : NodeId)
  | field (receiver : NodeId) (label : Name)
  | fieldAssign (receiver : NodeId) (label : Name) (value : NodeId)
  | declare (type : Name) (variants : Slice)
  | construct (type variant : Name) (fields : Slice)
  | intrinsic (function : Intrinsic) (args : Slice)
deriving DecidableEq, Inhabited, Repr

/-- A flat node and its place in the source text. -/
structure FlatNode where
  kind : FlatKind
  span : Span
deriving DecidableEq, Inhabited, Repr

/-! ### Tables -/

/-- The lists of all nodes.  The slices of declared variants fit. -/
structure Tables where
  nodes : Array NodeId
  names : Array Name
  fields : Array (Name × NodeId)
  variants : Array FlatVariant
  fits : ∀ v ∈ variants, v.fields.Fits names

namespace Tables

def empty : Tables := ⟨#[], #[], #[], #[], nofun⟩

/-- A declared variant with its field names. -/
def readVariant (t : Tables) (v : FlatVariant) : Variant := ⟨v.name, v.fields.read t.names⟩

/-- Declared variants with their field names. -/
def readVariants (t : Tables) (s : Slice) : List Variant := (s.read t.variants).map t.readVariant

/-- A kind of node with its lists. -/
def read (t : Tables) : FlatKind → Kind
  | .number id => .number id
  | .bool b => .bool b
  | .char c => .char c
  | .text content => .text content
  | .void => .void
  | .ident name => .ident name
  | .assign name value mutability => .assign name value mutability
  | .seq statements result => .seq (statements.read t.nodes) result
  | .ifElse condition whenTrue whenFalse => .ifElse condition whenTrue whenFalse
  | .lambda name params body => .lambda name (params.read t.names) body
  | .call callee args => .call callee (args.read t.nodes)
  | .binary op left right => .binary op left right
  | .list items => .list (items.read t.nodes)
  | .index source position => .index source position
  | .indexAssign target position value => .indexAssign target position value
  | .field receiver label => .field receiver label
  | .fieldAssign receiver label value => .fieldAssign receiver label value
  | .declare type variants => .declare type (t.readVariants variants)
  | .construct type variant fields => .construct type variant (fields.read t.fields)
  | .intrinsic function args => .intrinsic function (args.read t.nodes)

/-- The slice of a kind of node fits its table. -/
def Fits (t : Tables) : FlatKind → Prop
  | .seq statements _ => statements.Fits t.nodes
  | .lambda _ params _ => params.Fits t.names
  | .call _ args => args.Fits t.nodes
  | .list items => items.Fits t.nodes
  | .declare _ variants => variants.Fits t.variants
  | .construct _ _ fields => fields.Fits t.fields
  | .intrinsic _ args => args.Fits t.nodes
  | _ => True

/-! ### Growth -/

/-- Every table begins with what was in it. -/
structure Grows (t u : Tables) : Prop where
  nodes : Slice.Begins t.nodes u.nodes
  names : Slice.Begins t.names u.names
  fields : Slice.Begins t.fields u.fields
  variants : Slice.Begins t.variants u.variants

variable {t u v : Tables}

theorem Grows.refl (t : Tables) : t.Grows t := ⟨.refl _, .refl _, .refl _, .refl _⟩

theorem Grows.trans (h : t.Grows u) (h' : u.Grows v) : t.Grows v :=
  ⟨h.nodes.trans h'.nodes, h.names.trans h'.names, h.fields.trans h'.fields,
    h.variants.trans h'.variants⟩

theorem Grows.fits (h : t.Grows u) {k : FlatKind} (hk : t.Fits k) : u.Fits k := by
  cases k with
  | seq statements result => exact h.nodes.fits hk
  | lambda name params body => exact h.names.fits hk
  | call callee args => exact h.nodes.fits hk
  | list items => exact h.nodes.fits hk
  | declare type variants => exact h.variants.fits hk
  | construct type variant fields => exact h.fields.fits hk
  | intrinsic function args => exact h.nodes.fits hk
  | _ => trivial

theorem Grows.readVariant_eq (h : t.Grows u) {w : FlatVariant} (hw : w ∈ t.variants) :
    u.readVariant w = t.readVariant w := by
  rw [readVariant, readVariant, h.names.read_eq (t.fits w hw)]

theorem Grows.readVariants_eq (h : t.Grows u) {s : Slice} (hs : s.Fits t.variants) :
    u.readVariants s = t.readVariants s := by
  have hmem : ∀ w ∈ s.read t.variants, w ∈ t.variants := by
    intro w hw
    exact Array.mem_toList_iff.1 (List.mem_of_mem_drop (List.mem_of_mem_take hw))
  rw [readVariants, readVariants, h.variants.read_eq hs]
  exact List.map_congr_left fun w hw => h.readVariant_eq (hmem w hw)

/-- What fits is read as before when tables grow. -/
theorem Grows.read_eq (h : t.Grows u) {k : FlatKind} (hk : t.Fits k) : u.read k = t.read k := by
  cases k with
  | seq statements result => rw [read, read, h.nodes.read_eq hk]
  | lambda name params body => rw [read, read, h.names.read_eq hk]
  | call callee args => rw [read, read, h.nodes.read_eq hk]
  | list items => rw [read, read, h.nodes.read_eq hk]
  | declare type variants => rw [read, read, h.readVariants_eq hk]
  | construct type variant fields => rw [read, read, h.fields.read_eq hk]
  | intrinsic function args => rw [read, read, h.nodes.read_eq hk]
  | _ => rfl

/-! ### Storing -/

def allocNodes (t : Tables) (ids : List NodeId) : Slice × Tables :=
  ((Slice.alloc t.nodes ids).1, { t with nodes := (Slice.alloc t.nodes ids).2 })

def allocNames (t : Tables) (ns : List Name) : Slice × Tables :=
  ((Slice.alloc t.names ns).1,
    { t with
      names := (Slice.alloc t.names ns).2
      fits := fun v hv => (Slice.begins_alloc _ _).fits (t.fits v hv) })

def allocFields (t : Tables) (fs : List (Name × NodeId)) : Slice × Tables :=
  ((Slice.alloc t.fields fs).1, { t with fields := (Slice.alloc t.fields fs).2 })

/-- Put the field names of variants into the table of names. -/
def allocVariantFields (t : Tables) : List Variant → List FlatVariant × Tables
  | [] => ([], t)
  | v :: vs =>
    let (fields, t) := t.allocNames v.fields
    let (ws, t) := t.allocVariantFields vs
    (⟨v.name, fields⟩ :: ws, t)

theorem grows_allocNodes (t : Tables) (ids : List NodeId) : t.Grows (t.allocNodes ids).2 :=
  { Grows.refl t with nodes := Slice.begins_alloc _ _ }

theorem grows_allocNames (t : Tables) (ns : List Name) : t.Grows (t.allocNames ns).2 :=
  { Grows.refl t with names := Slice.begins_alloc _ _ }

theorem grows_allocFields (t : Tables) (fs : List (Name × NodeId)) :
    t.Grows (t.allocFields fs).2 :=
  { Grows.refl t with fields := Slice.begins_alloc _ _ }

theorem grows_allocVariantFields (t : Tables) (vs : List Variant) :
    t.Grows (t.allocVariantFields vs).2 := by
  induction vs generalizing t with
  | nil => exact .refl t
  | cons v vs ih => exact (t.grows_allocNames v.fields).trans (ih _)

theorem fits_allocVariantFields (t : Tables) (vs : List Variant) :
    ∀ w ∈ (t.allocVariantFields vs).1, w.fields.Fits (t.allocVariantFields vs).2.names := by
  induction vs generalizing t with
  | nil => exact nofun
  | cons v vs ih =>
    refine List.forall_mem_cons.2 ⟨?_, ih _⟩
    exact (grows_allocVariantFields _ vs).names.fits (Slice.fits_alloc t.names v.fields)

theorem read_allocVariantFields (t : Tables) (vs : List Variant) :
    (t.allocVariantFields vs).1.map (t.allocVariantFields vs).2.readVariant = vs := by
  induction vs generalizing t with
  | nil => rfl
  | cons v vs ih =>
    -- the names of the first variant are in place before those of the others follow
    have hgrows := grows_allocVariantFields (t.allocNames v.fields).2 vs
    have hfields := hgrows.names.read_eq (Slice.fits_alloc t.names v.fields)
    rw [show (t.allocNames v.fields).2.names = (Slice.alloc t.names v.fields).2 from rfl,
      Slice.read_alloc] at hfields
    exact congr (congrArg List.cons (congrArg (Variant.mk v.name) hfields)) (ih _)

/-- Put variants into the table of variants, after their field names. -/
def allocVariants (t : Tables) (vs : List Variant) : Slice × Tables :=
  let ws := (t.allocVariantFields vs).1
  let u := (t.allocVariantFields vs).2
  ((Slice.alloc u.variants ws).1,
    { u with
      variants := (Slice.alloc u.variants ws).2
      fits := by
        intro w hw
        rcases Array.mem_append.1 hw with hw | hw
        · exact u.fits w hw
        · exact t.fits_allocVariantFields vs w (List.mem_toArray.1 hw) })

theorem grows_allocVariants (t : Tables) (vs : List Variant) : t.Grows (t.allocVariants vs).2 :=
  (t.grows_allocVariantFields vs).trans
    { Grows.refl _ with variants := Slice.begins_alloc _ _ }

theorem read_allocVariants (t : Tables) (vs : List Variant) :
    (t.allocVariants vs).2.readVariants (t.allocVariants vs).1 = vs := by
  have hread : (t.allocVariants vs).1.read (t.allocVariants vs).2.variants =
      (t.allocVariantFields vs).1 := Slice.read_alloc _ _
  rw [readVariants, hread]
  exact t.read_allocVariantFields vs

/-- Put the list of a kind of node into its table. -/
def store (t : Tables) : Kind → FlatKind × Tables
  | .number id => (.number id, t)
  | .bool b => (.bool b, t)
  | .char c => (.char c, t)
  | .text content => (.text content, t)
  | .void => (.void, t)
  | .ident name => (.ident name, t)
  | .assign name value mutability => (.assign name value mutability, t)
  | .seq statements result => (t.allocNodes statements).map (.seq · result) id
  | .ifElse condition whenTrue whenFalse => (.ifElse condition whenTrue whenFalse, t)
  | .lambda name params body => (t.allocNames params).map (.lambda name · body) id
  | .call callee args => (t.allocNodes args).map (.call callee) id
  | .binary op left right => (.binary op left right, t)
  | .list items => (t.allocNodes items).map .list id
  | .index source position => (.index source position, t)
  | .indexAssign target position value => (.indexAssign target position value, t)
  | .field receiver label => (.field receiver label, t)
  | .fieldAssign receiver label value => (.fieldAssign receiver label value, t)
  | .declare type variants => (t.allocVariants variants).map (.declare type) id
  | .construct type variant fields => (t.allocFields fields).map (.construct type variant) id
  | .intrinsic function args => (t.allocNodes args).map (.intrinsic function) id

theorem grows_store (t : Tables) (k : Kind) : t.Grows (t.store k).2 := by
  cases k with
  | seq statements result => exact t.grows_allocNodes statements
  | lambda name params body => exact t.grows_allocNames params
  | call callee args => exact t.grows_allocNodes args
  | list items => exact t.grows_allocNodes items
  | declare type variants => exact t.grows_allocVariants variants
  | construct type variant fields => exact t.grows_allocFields fields
  | intrinsic function args => exact t.grows_allocNodes args
  | _ => exact .refl t

theorem fits_store (t : Tables) (k : Kind) : (t.store k).2.Fits (t.store k).1 := by
  cases k with
  | seq statements result => exact Slice.fits_alloc t.nodes statements
  | lambda name params body => exact Slice.fits_alloc t.names params
  | call callee args => exact Slice.fits_alloc t.nodes args
  | list items => exact Slice.fits_alloc t.nodes items
  | declare type variants => exact Slice.fits_alloc _ _
  | construct type variant fields => exact Slice.fits_alloc t.fields fields
  | intrinsic function args => exact Slice.fits_alloc t.nodes args
  | _ => trivial

/-- What is stored is read back. -/
theorem read_store (t : Tables) (k : Kind) : (t.store k).2.read (t.store k).1 = k := by
  cases k with
  | seq statements result =>
    exact congrArg (Kind.seq · result) (Slice.read_alloc t.nodes statements)
  | lambda name params body =>
    exact congrArg (Kind.lambda name · body) (Slice.read_alloc t.names params)
  | call callee args => exact congrArg (Kind.call callee) (Slice.read_alloc t.nodes args)
  | list items => exact congrArg Kind.list (Slice.read_alloc t.nodes items)
  | declare type variants => exact congrArg (Kind.declare type) (t.read_allocVariants variants)
  | construct type variant fields =>
    exact congrArg (Kind.construct type variant) (Slice.read_alloc t.fields fields)
  | intrinsic function args =>
    exact congrArg (Kind.intrinsic function) (Slice.read_alloc t.nodes args)
  | _ => rfl

end Tables

/-! ### Arenas -/

/-- A program in flat form.  The slices of all nodes fit. -/
structure Arena where
  nodes : Array FlatNode
  tables : Tables
  numbers : Array Decimal
  names : Names
  fits : ∀ n ∈ nodes, tables.Fits n.kind

namespace Arena

def empty : Arena := ⟨#[], .empty, #[], .initial, nofun⟩

/-- A flat node with its lists. -/
def readNode (a : Arena) (n : FlatNode) : Node := ⟨a.tables.read n.kind, n.span⟩

/-- The program that an arena stands for. -/
def program (a : Arena) : Program := ⟨a.nodes.map a.readNode, a.numbers, a.names⟩

theorem program_empty : empty.program = .empty := by
  simp [program, empty, Program.empty]

def addNode (a : Arena) (n : Node) : NodeId × Arena :=
  (⟨a.nodes.size⟩,
    { a with
      nodes := a.nodes.push ⟨(a.tables.store n.kind).1, n.span⟩
      tables := (a.tables.store n.kind).2
      fits := by
        intro m hm
        rcases Array.mem_push.1 hm with hm | rfl
        · exact (a.tables.grows_store n.kind).fits (a.fits m hm)
        · exact a.tables.fits_store n.kind })

def addNumber (a : Arena) (d : Decimal) : NumberId × Arena :=
  (⟨a.numbers.size⟩, { a with numbers := a.numbers.push d })

def addName (a : Arena) (text : String) : Name × Arena :=
  let (n, names) := a.names.intern text
  (n, { a with names })

/-- A node that is added is added to the program, and the nodes before it are read as
before. -/
theorem program_addNode (a : Arena) (n : Node) :
    (a.addNode n).map id program = a.program.addNode n := by
  -- slices of older nodes fit, so that the tables that grew read them as before
  have hold : ∀ m ∈ a.nodes, (a.addNode n).2.readNode m = a.readNode m := by
    intro m hm
    rw [readNode, readNode]
    exact congrArg (Node.mk · m.span) ((a.tables.grows_store n.kind).read_eq (a.fits m hm))
  have hnew : (a.addNode n).2.readNode ⟨(a.tables.store n.kind).1, n.span⟩ = n :=
    congrArg (Node.mk · n.span) (a.tables.read_store n.kind)
  have hnodes : (a.addNode n).2.program.nodes = (a.nodes.map a.readNode).push n := by
    show (a.nodes.push _).map (a.addNode n).2.readNode = _
    rw [Array.map_push, hnew, Array.map_congr_left hold]
  have hid : (a.addNode n).1 = (a.program.addNode n).1 := by
    show NodeId.mk a.nodes.size = ⟨(a.nodes.map a.readNode).size⟩
    rw [Array.size_map]
  exact Prod.ext hid (congrArg (Program.mk · a.numbers a.names) hnodes)

end Arena

instance : Storage Arena where
  program := Arena.program
  addNode := Arena.addNode
  addNumber := Arena.addNumber
  addName := Arena.addName
  program_addNode := Arena.program_addNode
  program_addNumber _ _ := rfl
  program_addName _ _ := rfl

end LazyExpr
