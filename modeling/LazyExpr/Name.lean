/-
LazyExpr/Name.lean

Names and the table that issues them.

A name is the position of its text in a table that only grows, so two names of
one table are equal exactly when their texts are.  The empty text is always the
first entry; an anonymous function carries that name.
-/
namespace LazyExpr

/-- A position in a table of names. -/
@[ext] structure Name where
  index : Nat
deriving DecidableEq, Inhabited, Repr

/-- The name of the empty text. -/
def Name.empty : Name := ⟨0⟩

def Name.isEmpty (n : Name) : Bool := n == Name.empty

/-- The texts that have been named, in the order in which they were met, and the names
under their texts.  Each of the two undoes the other. -/
structure Names where
  texts : Array String
  byText : List (String × Name)
  lookup_eq_iff : ∀ t n, byText.lookup t = some n ↔ texts[n.index]? = some t
deriving Repr

namespace Names

/-- The table that holds the empty text alone. -/
def initial : Names where
  texts := #[""]
  byText := [("", .empty)]
  lookup_eq_iff t n := by
    obtain ⟨i⟩ := n
    by_cases ht : t = ""
    · subst ht
      cases i <;> simp [Name.empty]
    · rw [List.lookup_cons, beq_eq_false_iff_ne.2 ht]
      cases i <;> simp [Ne.symm ht]

instance : Inhabited Names := ⟨initial⟩

def size (ns : Names) : Nat := ns.texts.size

/-- The name of a text that has been met before. -/
def find? (ns : Names) (text : String) : Option Name := ns.byText.lookup text

/-- The text of a name that was issued. -/
def text? (ns : Names) (n : Name) : Option String := ns.texts[n.index]?

/-- The text of a name; a name that was never issued has the empty text. -/
def text (ns : Names) (n : Name) : String := (ns.text? n).getD ""

/-- Finding a name and reading its text undo each other. -/
theorem find?_eq_some_iff {ns : Names} {t : String} {n : Name} :
    ns.find? t = some n ↔ ns.text? n = some t := ns.lookup_eq_iff t n

/-- No text has two names. -/
theorem eq_of_text? {ns : Names} {a b : Name} {t : String} (ha : ns.text? a = some t)
    (hb : ns.text? b = some t) : a = b :=
  Option.some.inj ((find?_eq_some_iff.2 ha).symm.trans (find?_eq_some_iff.2 hb))

theorem index_lt_of_text? {ns : Names} {n : Name} {t : String} (h : ns.text? n = some t) :
    n.index < ns.size := (Array.getElem?_eq_some_iff.1 h).1

/-- A table with one more text, which has the next position for its name. -/
def add (ns : Names) (text : String) (new : ns.find? text = none) : Names where
  texts := ns.texts.push text
  byText := (text, ⟨ns.size⟩) :: ns.byText
  lookup_eq_iff t n := by
    -- No name has the text yet: under one it would have been found.
    have hnew : ns.texts[n.index]? ≠ some text := by
      intro h
      rw [find?_eq_some_iff.2 h] at new
      cases new
    rw [Array.getElem?_push]
    by_cases ht : t = text
    · subst ht
      rw [List.lookup_cons_self]
      split
      · next hi => simp [Name.ext_iff, size, hi]
      · next hi => simp [Name.ext_iff, size, Ne.symm hi, hnew]
    · rw [List.lookup_cons, beq_eq_false_iff_ne.2 ht]
      refine (ns.lookup_eq_iff t n).trans ?_
      split
      · next hi => simp [hi, Ne.symm ht]
      · exact Iff.rfl

/-- The name of a text, which joins the table if it is new. -/
def intern (ns : Names) (text : String) : Name × Names :=
  match new : ns.find? text with
  | some n => (n, ns)
  | none => (⟨ns.size⟩, ns.add text new)

/-- A text that has been met before keeps its name, and a new one joins at the end. -/
theorem intern_eq (ns : Names) (t : String) :
    (∃ n, ns.text? n = some t ∧ ns.intern t = (n, ns)) ∨
      ∃ new, ns.intern t = (⟨ns.size⟩, ns.add t new) := by
  unfold intern
  split
  · next n hn => exact .inl ⟨n, find?_eq_some_iff.1 hn, rfl⟩
  · next new => exact .inr ⟨new, rfl⟩

/-- What a table with one more text reads for a name. -/
theorem text?_add (ns : Names) (t : String) (new : ns.find? t = none) (n : Name) :
    (ns.add t new).text? n = if n.index = ns.size then some t else ns.text? n :=
  Array.getElem?_push

theorem size_add (ns : Names) (t : String) (new : ns.find? t = none) :
    (ns.add t new).size = ns.size + 1 := Array.size_push ..

/-- A text that has just been named is the text of its name. -/
theorem text?_intern (ns : Names) (t : String) :
    (ns.intern t).2.text? (ns.intern t).1 = some t := by
  rcases ns.intern_eq t with ⟨n, hn, h⟩ | ⟨new, h⟩
  · rw [h, hn]
  · rw [h, text?_add, if_pos rfl]

theorem size_intern_le (ns : Names) (t : String) : ns.size ≤ (ns.intern t).2.size := by
  rcases ns.intern_eq t with ⟨n, -, h⟩ | ⟨new, h⟩
  · simp [h]
  · simp [h, size_add]

theorem index_intern_lt (ns : Names) (t : String) :
    (ns.intern t).1.index < (ns.intern t).2.size := index_lt_of_text? (ns.text?_intern t)

/-- Names keep their texts while the table grows. -/
theorem text?_intern_of_lt (ns : Names) (t : String) {n : Name} (hn : n.index < ns.size) :
    (ns.intern t).2.text? n = ns.text? n := by
  rcases ns.intern_eq t with ⟨m, -, h⟩ | ⟨new, h⟩
  · rw [h]
  · rw [h, text?_add, if_neg (Nat.ne_of_lt hn)]

end Names

end LazyExpr
