/-
LazyExpr/Proofs/Decimal/Notation.lean

The printed form of a decimal names its number and can be read back.

A text without an exponent denotes the integer that its characters without the point
spell, with as many fractional digits as stand after the point (`Spells`).
`splitPoint_positional` follows this through the three layouts of positional notation:
zeros after the digits, the point inside the digits, zeros before the digits.  So the
text of a decimal determines its number, and since the text is a function of the
normal form, equal texts and equal numbers are the same thing.

Reading adds to this the search for an exponent, of which there is none, and the
bound on the scale, which the printed form meets because it has no more fractional
digits than the form it was printed from.
-/
import LazyExpr.Decimal.Text
import LazyExpr.Proofs.Decimal.Value
import Mathlib.Data.List.TakeDrop
import Mathlib.Data.List.TakeWhile

namespace LazyExpr.Decimal

/-! ### Runs of digits -/

/-- Every character is a decimal digit. -/
def AreDigits (cs : List Char) : Prop := ∀ c ∈ cs, c.isDigit

theorem AreDigits.append {cs ds : List Char} (h : AreDigits cs) (h' : AreDigits ds) :
    AreDigits (cs ++ ds) :=
  fun c hc => (List.mem_append.mp hc).elim (h c) (h' c)

theorem areDigits_replicate_zero (n : Nat) : AreDigits (List.replicate n '0') :=
  fun _ hc => List.eq_of_mem_replicate hc ▸ rfl

theorem areDigits_toDigits (n : Nat) : AreDigits (Nat.toDigits 10 n) :=
  fun _ hc => Nat.isDigit_of_mem_toDigits (by decide) (by decide) hc

/-- A character that is no digit stands nowhere in a run of digits. -/
theorem AreDigits.ne {cs : List Char} (h : AreDigits cs) {c x : Char} (hx : x.isDigit = false)
    (hc : c ∈ cs) : c ≠ x := by
  rintro rfl
  simp [h c hc] at hx

theorem AreDigits.filter_underscore {cs : List Char} (h : AreDigits cs) :
    cs.filter (· != '_') = cs :=
  List.filter_eq_self.mpr fun _ hc => bne_iff_ne.mpr (h.ne rfl hc)

theorem digitsValue_eq_ofDigitChars (cs : List Char) : digitsValue cs = Nat.ofDigitChars 10 cs 0 :=
  Nat.ofDigitChars_eq_foldl.symm

theorem digitsValue_toDigits (n : Nat) : digitsValue (Nat.toDigits 10 n) = n := by
  rw [digitsValue_eq_ofDigitChars, Nat.ofDigitChars_ten_toDigits]

theorem digitsValue_append_zeros (cs : List Char) (n : Nat) :
    digitsValue (cs ++ List.replicate n '0') = digitsValue cs * 10 ^ n := by
  rw [digitsValue_eq_ofDigitChars, digitsValue_eq_ofDigitChars, Nat.ofDigitChars_append,
    Nat.ofDigitChars_replicate_zero, Nat.mul_comm]

theorem digitsValue_zeros_append (cs : List Char) (n : Nat) :
    digitsValue (List.replicate n '0' ++ cs) = digitsValue cs := by
  rw [digitsValue_eq_ofDigitChars, digitsValue_eq_ofDigitChars, Nat.ofDigitChars_append,
    Nat.ofDigitChars_replicate_zero, Nat.mul_zero]

/-! ### The point -/

theorem splitPoint_of_not_mem {cs : List Char} (h : '.' ∉ cs) : splitPoint cs = (cs, 0) := by
  have hcs : ∀ c ∈ cs, (c != '.') = true := fun c hc => bne_iff_ne.mpr fun e => h (e ▸ hc)
  simp only [splitPoint, List.span_eq_takeWhile_dropWhile, List.takeWhile_eq_self_iff.mpr hcs,
    List.dropWhile_eq_nil_iff.mpr hcs]

theorem splitPoint_append {cs ds : List Char} (h : '.' ∉ cs) :
    splitPoint (cs ++ '.' :: ds) = (cs ++ ds, (ds.filter (· != '_')).length) := by
  have hcs : ∀ c ∈ cs, (c != '.') = true := fun c hc => bne_iff_ne.mpr fun e => h (e ▸ hc)
  simp only [splitPoint, List.span_eq_takeWhile_dropWhile, List.takeWhile_append_of_pos hcs,
    List.dropWhile_append_of_pos hcs]
  simp

theorem splitPoint_cons {c : Char} (hc : c ≠ '.') (cs : List Char) :
    splitPoint (c :: cs) = (c :: (splitPoint cs).1, (splitPoint cs).2) := by
  have hb : (c != '.') = true := bne_iff_ne.mpr hc
  simp only [splitPoint, List.span_eq_takeWhile_dropWhile, List.takeWhile_cons, List.dropWhile_cons,
    hb, if_true]
  cases cs.dropWhile (· != '.') <;> rfl

/-- Positional notation of the digits `ds` with scale `s` is a run of digits whose value
is that of `ds` with scale `s`; the point leaves `s` places behind it, or none. -/
theorem splitPoint_positional {ds : List Char} (hds : AreDigits ds) (hne : ds ≠ []) (s : Int) :
    AreDigits (splitPoint (positional ds s)).1 ∧ (splitPoint (positional ds s)).1 ≠ [] ∧
      (splitPoint (positional ds s)).2 = s.toNat ∧
      toRat ⟨digitsValue (splitPoint (positional ds s)).1, s.toNat⟩ = toRat ⟨digitsValue ds, s⟩ := by
  by_cases hs : s ≤ 0
  · -- An integer: the scale is made up for by zeros after the digits.
    have hall := hds.append (areDigits_replicate_zero (-s).toNat)
    have hsplit : splitPoint (positional ds s) = (ds ++ List.replicate (-s).toNat '0', 0) := by
      rw [positional, if_pos hs]
      exact splitPoint_of_not_mem fun h => hall.ne rfl h rfl
    rw [hsplit]
    have hscale : s.toNat = 0 := Int.toNat_of_nonpos hs
    refine ⟨hall, by simp [hne], hscale.symm, ?_⟩
    rw [hscale, eq_comm, toRat_eq_iff_of_scale_le (by simpa using hs), digitsValue_append_zeros]
    simp [mantissaAt, powTen]
  · by_cases hlen : s.toNat < ds.length
    · -- The point stands inside the digits.
      have htake : AreDigits (ds.take (ds.length - s.toNat)) := fun c hc => hds c (List.mem_of_mem_take hc)
      have hdrop : AreDigits (ds.drop (ds.length - s.toNat)) := fun c hc => hds c (List.mem_of_mem_drop hc)
      have hsplit : splitPoint (positional ds s) = (ds, s.toNat) := by
        simp only [positional, if_neg hs, if_pos hlen]
        rw [splitPoint_append fun h => htake.ne rfl h rfl, List.take_append_drop,
          hdrop.filter_underscore, List.length_drop]
        congr 1
        omega
      rw [hsplit]
      refine ⟨hds, hne, rfl, ?_⟩
      rw [Int.toNat_of_nonneg (by omega)]
    · -- The point stands before the digits, after one zero.
      have hzeros := areDigits_replicate_zero (s.toNat - ds.length)
      have hsplit : splitPoint (positional ds s) =
          (List.replicate (s.toNat - ds.length + 1) '0' ++ ds, s.toNat) := by
        simp only [positional, if_neg hs, if_neg hlen]
        rw [show ('0' :: '.' :: (List.replicate (s.toNat - ds.length) '0' ++ ds)) =
            ['0'] ++ '.' :: (List.replicate (s.toNat - ds.length) '0' ++ ds) from rfl,
          splitPoint_append (by decide), (hzeros.append hds).filter_underscore, List.length_append,
          List.length_replicate, List.replicate_succ]
        congr 1
        omega
      rw [hsplit]
      refine ⟨(areDigits_replicate_zero _).append hds, by simp [hne], rfl, ?_⟩
      rw [digitsValue_zeros_append, Int.toNat_of_nonneg (by omega)]

/-! ### Texts without an exponent -/

theorem readNatural_of_areDigits {cs : List Char} (h : AreDigits cs) (hne : cs ≠ []) :
    readNatural cs = some (digitsValue cs) := by
  have hempty : cs.isEmpty = false := by simpa using hne
  have hhead : (cs.head? == some '_') = false :=
    beq_eq_false_iff_ne.mpr fun e => h.ne rfl (List.mem_of_mem_head? e) rfl
  have hall : cs.all (fun c => c.isDigit || c == '_') = true :=
    List.all_eq_true.mpr fun c hc => by rw [h c hc, Bool.true_or]
  rw [readNatural, hempty, hhead, hall, h.filter_underscore]
  rfl

theorem dropPlus_of_areDigits {cs : List Char} (h : AreDigits cs) : dropPlus cs = cs := by
  rcases cs with - | ⟨c, r⟩
  · rfl
  · have hc : c ≠ '+' := h.ne rfl (List.mem_cons_self)
    simp [dropPlus, hc]

theorem readMantissa_of_areDigits {cs : List Char} (h : AreDigits cs) (hne : cs ≠ []) :
    readMantissa cs = some (digitsValue cs : Int) := by
  obtain ⟨c, r, rfl⟩ := List.exists_cons_of_ne_nil hne
  have hc : c ≠ '-' := h.ne rfl (List.mem_cons_self)
  simp [readMantissa, hc, dropPlus_of_areDigits h, readNatural_of_areDigits h hne]

theorem readMantissa_minus {cs : List Char} (h : AreDigits cs) (hne : cs ≠ []) :
    readMantissa ('-' :: cs) = some (-(digitsValue cs : Int)) := by
  obtain ⟨c, r, rfl⟩ := List.exists_cons_of_ne_nil hne
  have hc : c ≠ '+' := h.ne rfl (List.mem_cons_self)
  simp [readMantissa, hc, dropPlus_of_areDigits h, readNatural_of_areDigits h hne]

/-- `cs` without its point spells the mantissa of `d`, and the point stands as many
places from the end as the scale says. -/
def Spells (cs : List Char) (d : Decimal) : Prop :=
  readMantissa (splitPoint cs).1 = some d.mantissa ∧ (splitPoint cs).2 = d.scale

theorem Spells.unique {cs : List Char} {d e : Decimal} (hd : Spells cs d) (he : Spells cs e) :
    d = e := by
  obtain ⟨m, s⟩ := d
  obtain ⟨m', s'⟩ := e
  obtain rfl : m = m' := Option.some.inj (hd.1.symm.trans he.1)
  obtain rfl : s = s' := hd.2.symm.trans he.2
  rfl

/-- Positional notation spells a form of the number that it was made from, and with a
minus before it the opposite. -/
theorem exists_spells_positional (n : Nat) (s : Int) :
    ∃ m : Int, Spells (positional (Nat.toDigits 10 n) s) ⟨m, s.toNat⟩ ∧
      Spells ('-' :: positional (Nat.toDigits 10 n) s) ⟨-m, s.toNat⟩ ∧
      toRat ⟨m, s.toNat⟩ = toRat ⟨n, s⟩ := by
  obtain ⟨hdigits, hne, hscale, hval⟩ :=
    splitPoint_positional (areDigits_toDigits n) Nat.toDigits_ne_nil s
  rw [digitsValue_toDigits] at hval
  refine ⟨_, ⟨readMantissa_of_areDigits hdigits hne, congrArg Nat.cast hscale⟩, ⟨?_, ?_⟩, hval⟩
  · rw [splitPoint_cons (by decide)]
    exact readMantissa_minus hdigits hne
  · rw [splitPoint_cons (by decide)]
    exact congrArg Nat.cast hscale

/-- The text of a decimal spells a form of its number, with as many fractional digits
as the normal form has. -/
theorem exists_spells_toChars (d : Decimal) :
    ∃ m : Int, Spells d.toChars ⟨m, d.normalize.scale.toNat⟩ ∧
      toRat ⟨m, d.normalize.scale.toNat⟩ = d.toRat := by
  obtain ⟨m, hplus, hminus, hm⟩ :=
    exists_spells_positional d.normalize.mantissa.natAbs d.normalize.scale
  by_cases hneg : d.normalize.mantissa < 0
  · refine ⟨-m, by simpa [toChars, isNegative, hneg] using hminus, ?_⟩
    calc toRat (neg ⟨m, d.normalize.scale.toNat⟩)
        = toRat (neg ⟨d.normalize.mantissa.natAbs, d.normalize.scale⟩) := by
          rw [toRat_neg, hm, toRat_neg]
      _ = d.normalize.toRat := by simp [neg, abs_of_neg hneg]
      _ = d.toRat := toRat_normalize d
  · refine ⟨m, by simpa [toChars, isNegative, hneg] using hplus, ?_⟩
    calc toRat ⟨m, d.normalize.scale.toNat⟩
        = toRat ⟨d.normalize.mantissa.natAbs, d.normalize.scale⟩ := hm
      _ = d.normalize.toRat := by simp [abs_of_nonneg (not_lt.mp hneg)]
      _ = d.toRat := toRat_normalize d

/-! ### Equal texts -/

theorem toChars_eq_iff {a b : Decimal} : a.toChars = b.toChars ↔ a.toRat = b.toRat := by
  constructor
  · intro h
    obtain ⟨m, ha, hm⟩ := exists_spells_toChars a
    obtain ⟨n, hb, hn⟩ := exists_spells_toChars b
    rw [h] at ha
    rw [← hm, ← hn, ha.unique hb]
  · intro h
    simp only [toChars, normalize_eq_normalize_iff.mpr h]

theorem toText_eq_iff {a b : Decimal} : a.toText = b.toText ↔ a.toRat = b.toRat := by
  rw [← toChars_eq_iff, toText, toText, String.ofList_inj]

/-! ### Reading -/

/-- A text without an exponent is read as the decimal that it spells, if the scale is
in range. -/
theorem read?_of_spells {cs : List Char} {d : Decimal} (hmark : ∀ c ∈ cs, isExponentMark c = false)
    (hne : cs ≠ []) (h : Spells cs d) (hfits : fitsInt64 d.scale) : read? cs = some d := by
  have hspan : cs.span (fun c => !isExponentMark c) = (cs, []) := by
    have hall : ∀ c ∈ cs, (!isExponentMark c) = true := fun c hc => by rw [hmark c hc]; rfl
    rw [List.span_eq_takeWhile_dropWhile, List.takeWhile_eq_self_iff.mpr hall,
      List.dropWhile_eq_nil_iff.mpr hall]
  have hempty : cs.isEmpty = false := by simpa using hne
  have hscale : ((splitPoint cs).2 : Int) - 0 = d.scale := by rw [Int.sub_zero, h.2]
  simp only [read?, hspan]
  rw [Option.bind_eq_bind, Option.bind_some, hempty, if_neg Bool.false_ne_true, hscale,
    if_pos hfits, h.1]
  rfl

theorem mem_positional {ds : List Char} {s : Int} {c : Char} (h : c ∈ positional ds s) :
    c ∈ ds ∨ c = '0' ∨ c = '.' := by
  simp only [positional] at h
  split at h
  · simp only [List.mem_append, List.mem_replicate] at h
    tauto
  · split at h
    · simp only [List.mem_append, List.mem_cons] at h
      rcases h with h | h | h
      · exact .inl (List.mem_of_mem_take h)
      · exact .inr (.inr h)
      · exact .inl (List.mem_of_mem_drop h)
    · simp only [List.mem_append, List.mem_cons, List.mem_replicate] at h
      tauto

/-- The printed form consists of digits, a point and a minus. -/
theorem mem_toChars {d : Decimal} {c : Char} (h : c ∈ d.toChars) :
    c.isDigit ∨ c = '.' ∨ c = '-' := by
  have hpos : ∀ {n s}, c ∈ positional (Nat.toDigits 10 n) s → c.isDigit ∨ c = '.' ∨ c = '-' := by
    intro n s hc
    rcases mem_positional hc with hc | rfl | rfl
    · exact .inl (areDigits_toDigits n c hc)
    · exact .inl rfl
    · exact .inr (.inl rfl)
  simp only [toChars] at h
  split at h
  · rcases List.mem_cons.mp h with rfl | hc
    · exact .inr (.inr rfl)
    · exact hpos hc
  · exact hpos h

theorem isExponentMark_of_mem_toChars {d : Decimal} {c : Char} (h : c ∈ d.toChars) :
    isExponentMark c = false := by
  rcases mem_toChars h with hc | rfl | rfl
  · by_contra hmark
    rcases (Bool.or_eq_true _ _).mp (Bool.not_eq_false _ ▸ hmark) with he | he <;>
      simp [beq_iff_eq.mp he] at hc
  · rfl
  · rfl

/-- Reading the printed form gives a decimal of the same number. -/
theorem exists_read?_toChars {d : Decimal} (h : fitsInt64 d.scale) :
    ∃ e, read? d.toChars = some e ∧ e.toRat = d.toRat := by
  obtain ⟨m, hspells, hm⟩ := exists_spells_toChars d
  refine ⟨_, read?_of_spells (fun c hc => isExponentMark_of_mem_toChars hc) ?_ hspells ?_, hm⟩
  · intro hnil
    simp [hnil, Spells, splitPoint, readMantissa, dropPlus, readNatural] at hspells
  · have hle := scale_normalize_le d
    simp only [fitsInt64, decide_eq_true_eq] at h ⊢
    omega

/-- **The printed form is canonical and can be read back.**  Two decimals are printed
alike exactly when they are the same number; and the printed form of a decimal whose
scale is in range is a literal of that number, which is printed in the same way again. -/
theorem toText_canonical_and_readable (a b : Decimal) :
    (a.toText = b.toText ↔ a.toRat = b.toRat) ∧
      (fitsInt64 a.scale → ∃ d, ofText a.toText = .ok d ∧ d.toRat = a.toRat ∧ d.toText = a.toText) := by
  refine ⟨toText_eq_iff, fun hfits => ?_⟩
  obtain ⟨d, hread, hd⟩ := exists_read?_toChars hfits
  refine ⟨d, ?_, hd, toText_eq_iff.mpr hd⟩
  rw [ofText, toText, String.toList_ofList, hread]

/-- A negative fraction with zeros on both sides of its digits. -/
theorem toText_readable_fraction :
    toText ⟨-1200, 5⟩ = "-0.012" ∧ fitsInt64 5 ∧
      ∃ d, ofText (toText ⟨-1200, 5⟩) = .ok d ∧ d.toRat = toRat ⟨-1200, 5⟩ ∧
        d.toText = toText ⟨-1200, 5⟩ := by
  have hnorm : normalize ⟨-1200, 5⟩ = ⟨-12, 3⟩ := by simp [normalize, isZero, stripZeros]
  refine ⟨?_, by decide, (toText_canonical_and_readable ⟨-1200, 5⟩ zero).2 (by decide)⟩
  rw [toText, toChars, hnorm]
  decide

end LazyExpr.Decimal
