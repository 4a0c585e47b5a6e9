/-
LazyExpr/Proofs/Interning.lean

Naming texts one after another.

A table that starts out with the empty text alone holds, after any list of
texts has been named, exactly these texts and the empty one, each once and in
the order in which they were first met (`Met`).  A name is the position of its
text in that order; nothing that is named later moves it.
-/
import Mathlib.Data.List.Basic
import LazyExpr.Name

namespace LazyExpr

namespace Names

/-! ### Texts named in turn -/

/-- Name texts one after another. -/
def internAll (ns : Names) : List String → List Name × Names
  | [] => ([], ns)
  | t :: ts =>
    let (n, next) := ns.intern t
    let (rest, last) := next.internAll ts
    (n :: rest, last)

@[simp] theorem internAll_nil (ns : Names) : ns.internAll [] = ([], ns) := rfl

@[simp] theorem internAll_cons (ns : Names) (t : String) (ts : List String) :
    ns.internAll (t :: ts) =
      ((ns.intern t).1 :: ((ns.intern t).2.internAll ts).1, ((ns.intern t).2.internAll ts).2) :=
  rfl

/-- The texts of a table are those that were met, each where it was first met. -/
def Met (ns : Names) (ts : List String) : Prop := ns.texts.toList = ts.eraseDups

theorem met_initial : initial.Met [""] := by
  show [""] = _
  rw [List.eraseDups_cons, List.filter_nil, List.eraseDups_nil]

theorem mem_texts_iff {ns : Names} {t : String} :
    t ∈ ns.texts.toList ↔ ∃ n, ns.text? n = some t := by
  rw [Array.mem_toList_iff, Array.mem_iff_getElem?]
  exact ⟨fun ⟨i, h⟩ => ⟨⟨i⟩, h⟩, fun ⟨n, h⟩ => ⟨n.index, h⟩⟩

/-- A text that is named joins those that were met, unless it is one of them. -/
theorem Met.intern {ns : Names} {ts : List String} (h : ns.Met ts) (t : String) :
    (ns.intern t).2.Met (ts ++ [t]) := by
  have hmem : t ∈ ts ↔ ∃ n, ns.text? n = some t := by
    rw [← mem_texts_iff, h, List.mem_eraseDups]
  show (ns.intern t).2.texts.toList = _
  rw [List.eraseDups_append]
  rcases ns.intern_eq t with ⟨n, hn, he⟩ | ⟨new, he⟩
  · have hold : [t].removeAll ts = [] := by simp [List.removeAll, hmem.2 ⟨n, hn⟩]
    rw [he, hold, List.eraseDups_nil, List.append_nil, ← h]
  · have hnew : t ∉ ts := by
      intro ht
      obtain ⟨n, hn⟩ := hmem.1 ht
      rw [find?_eq_some_iff.2 hn] at new
      cases new
    have hkept : [t].removeAll ts = [t] := by simp [List.removeAll, hnew]
    rw [he, hkept, List.eraseDups_cons, List.filter_nil, List.eraseDups_nil, ← h]
    exact Array.toList_push

theorem Met.internAll {ns : Names} {met : List String} (h : ns.Met met) (ts : List String) :
    (ns.internAll ts).2.Met (met ++ ts) := by
  induction ts generalizing ns met with
  | nil => simpa using h
  | cons t ts ih => simpa using ih (h.intern t)

/-! ### Names as positions -/

/-- A name is the position of its text among the texts that were met. -/
theorem Met.index_eq {ns : Names} {ts : List String} (h : ns.Met ts) {n : Name} {t : String}
    (hn : ns.text? n = some t) : n = ⟨ts.eraseDups.idxOf t⟩ := by
  refine eq_of_text? hn ?_
  show ns.texts[_]? = _
  rw [← h, ← Array.getElem?_toList]
  exact List.getElem?_idxOf (mem_texts_iff.2 ⟨n, hn⟩)

theorem Met.find?_isSome_iff {ns : Names} {ts : List String} (h : ns.Met ts) {t : String} :
    (ns.find? t).isSome ↔ t ∈ ts := by
  rw [← List.mem_eraseDups, ← h, mem_texts_iff, Option.isSome_iff_exists]
  exact exists_congr fun n => find?_eq_some_iff

theorem text_of_text? {ns : Names} {n : Name} {t : String} (h : ns.text? n = some t) :
    ns.text n = t := by
  rw [text, h, Option.getD_some]

/-- A name that was issued has a text. -/
theorem text?_of_lt {ns : Names} {n : Name} (h : n.index < ns.size) :
    ns.text? n = some (ns.text n) := by
  rw [text, text?, Array.getElem?_eq_getElem h, Option.getD_some]

/-- A text that has a name keeps it, and leaves the table as it is. -/
theorem intern_of_text? {ns : Names} {n : Name} {t : String} (h : ns.text? n = some t) :
    ns.intern t = (n, ns) := by
  rcases ns.intern_eq t with ⟨m, hm, he⟩ | ⟨new, -⟩
  · rw [he, eq_of_text? hm h]
  · rw [find?_eq_some_iff.2 h] at new
    cases new

/-! ### What stays -/

/-- However many texts are named later, a name keeps its text. -/
theorem text?_internAll_of_lt (ns : Names) (ts : List String) {n : Name}
    (hn : n.index < ns.size) : (ns.internAll ts).2.text? n = ns.text? n := by
  induction ts generalizing ns with
  | nil => rfl
  | cons t ts ih =>
    rw [← ns.text?_intern_of_lt t hn]
    exact ih _ (Nat.lt_of_lt_of_le hn (ns.size_intern_le t))

theorem text?_internAll {ns : Names} (ts : List String) {n : Name} {t : String}
    (hn : ns.text? n = some t) : (ns.internAll ts).2.text? n = some t := by
  rw [text?_internAll_of_lt ns ts (index_lt_of_text? hn), hn]

/-- Each text was given the position that it has in the end. -/
theorem Met.issued {ns : Names} {met : List String} (h : ns.Met met) (ts : List String) :
    (ns.internAll ts).1 = ts.map fun t => ⟨(met ++ ts).eraseDups.idxOf t⟩ := by
  induction ts generalizing ns met with
  | nil => rfl
  | cons t ts ih =>
    -- `t` is given its name now, and its place is read off the table in the end
    have hhead : (ns.internAll (t :: ts)).2.text? (ns.intern t).1 = some t :=
      text?_internAll ts (ns.text?_intern t)
    have htail := ih (h.intern t)
    rw [List.append_assoc] at htail
    rw [internAll_cons, List.map_cons, ← (h.internAll (t :: ts)).index_eq hhead]
    exact congrArg _ htail

/-- **Naming is a stable bijection**, whatever texts were named.  The texts stand in the
order in which they were first met, the empty one before all others, and a name is a
position in that order; the two sides of the table undo each other, names are found for
the texts that were met and for no others, and whatever is named later changes neither
the text of a name nor the name of a text. -/
theorem stable_bijection {ts : List String} {issued : List Name} {ns : Names}
    (h : initial.internAll ts = (issued, ns)) :
    issued = ts.map (fun t => ⟨("" :: ts).eraseDups.idxOf t⟩) ∧
    ns.texts.toList = ("" :: ts).eraseDups ∧ ns.size = ("" :: ts).eraseDups.length ∧
    ns.find? "" = some .empty ∧
    (∀ t n, ns.byText.lookup t = some n ↔ ns.texts[n.index]? = some t) ∧
    (∀ t, (ns.find? t).isSome ↔ t = "" ∨ t ∈ ts) ∧
    (∀ t, (ns.intern t).2.text (ns.intern t).1 = t) ∧
    (∀ n, n.index < ns.size → ns.intern (ns.text n) = (n, ns)) ∧
    (∀ s t, (ns.intern s).1 = ((ns.intern s).2.intern t).1 ↔ s = t) ∧
    ∀ later,
      (∀ n, n.index < ns.size → (ns.internAll later).2.text n = ns.text n) ∧
      ∀ t, (ns.find? t).isSome → (ns.internAll later).2.find? t = ns.find? t := by
  obtain ⟨rfl, rfl⟩ := Prod.ext_iff.1 h.symm
  set ns := (initial.internAll ts).2
  have hmet : ns.Met ("" :: ts) := met_initial.internAll ts
  refine ⟨met_initial.issued ts, hmet, ?_, ?_, ns.lookup_eq_iff, ?_, ?_, ?_, ?_, ?_⟩
  · show ns.texts.size = _
    rw [← Array.length_toList, hmet]
  · exact find?_eq_some_iff.2 (text?_internAll ts rfl)
  · intro t
    rw [hmet.find?_isSome_iff, List.mem_cons]
  · intro t
    exact text_of_text? (ns.text?_intern t)
  · intro n hn
    exact intern_of_text? (text?_of_lt hn)
  · intro s t
    constructor
    · -- The name of `s` still reads `s` after `t` was named.
      intro he
      have hs := text?_internAll [t] (ns.text?_intern s)
      have ht := (ns.intern s).2.text?_intern t
      rw [← he] at ht
      exact Option.some.inj (hs.symm.trans ht)
    · rintro rfl
      rw [intern_of_text? (ns.text?_intern s)]
  · intro later
    refine ⟨fun n hn => ?_, fun t ht => ?_⟩
    · rw [text, text, text?_internAll_of_lt ns later hn]
    · obtain ⟨n, hn⟩ := Option.isSome_iff_exists.1 ht
      rw [hn]
      exact find?_eq_some_iff.2 (text?_internAll later (find?_eq_some_iff.1 hn))

/-- The second `x` gets the name of the first, and a later `z` changes neither the text of `2`
nor the name of `x`. -/
theorem stable_bijection_of_repeated_text :
    let ns := (initial.internAll ["x", "", "y", "x"]).2
    initial.internAll ["x", "", "y", "x"] = ([⟨1⟩, ⟨0⟩, ⟨2⟩, ⟨1⟩], ns) ∧
    ns.intern (ns.text ⟨2⟩) = (⟨2⟩, ns) ∧ (ns.internAll ["z", "y"]).2.text ⟨2⟩ = ns.text ⟨2⟩ ∧
    (ns.internAll ["z", "y"]).2.find? "x" = ns.find? "x" := by
  intro ns
  have h : initial.internAll ["x", "", "y", "x"] = ([⟨1⟩, ⟨0⟩, ⟨2⟩, ⟨1⟩], ns) :=
    Prod.ext (by decide) rfl
  obtain ⟨_, _, _, _, _, _, _, hback, _, hlater⟩ := stable_bijection h
  obtain ⟨htext, hfind⟩ := hlater ["z", "y"]
  exact ⟨h, hback ⟨2⟩ (by decide), htext ⟨2⟩ (by decide), hfind "x" (by decide)⟩

end Names

end LazyExpr
