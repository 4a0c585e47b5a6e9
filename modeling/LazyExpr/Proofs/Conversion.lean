/-
LazyExpr/Proofs/Conversion.lean

What a number is when it is used as an integer.

Three conversions ask whether a number is an integer.  They go through the normal form, so they
depend on the number and not on how it is written: each answers exactly for the integers of its
range (`integer_conversions_decide_value`).  An index of a list uses two of them.  An integer
beyond 64 bits is reported as the end of that range, and no list has a place there, so the cut
lets none through (`Context.position_of_outside`).

A fourth conversion cuts off the digits after the point.  It divides by a power of ten, which is
refused if there are too many digits, and the refusal is taken for a number that is too large.
So it depends on how a number is written after all, and the smallest numbers are refused instead
of being cut to zero (`truncation_limited_by_digits`).
-/
import LazyExpr.Proofs.Decimal.Order
import LazyExpr.Proofs.Invariant
import LazyExpr.Proofs.Repetition
import LazyExpr.Session

namespace LazyExpr

/-! ### Places -/

/-- An integer, cut to the ends of the range of 64 bits. -/
def clampInt64 (n : ℤ) : ℤ := max (-2 ^ 63) (min n (2 ^ 63 - 1))

namespace Context

/-- The integer that a refused index is reported as. -/
theorem getD_toInt64? {d : Decimal} {n : ℤ} (hd : d.toRat = n) :
    d.toInt64?.getD (if d.isNegative then -9223372036854775808 else 9223372036854775807) =
      clampInt64 n := by
  have hsign : d.isNegative = true ↔ n < 0 := by rw [Decimal.isNegative_iff, hd, Int.cast_lt_zero]
  unfold clampInt64
  by_cases hfits : Decimal.fitsInt64 n = true
  · rw [Decimal.toInt64?_eq_some_iff.mpr ⟨hd, hfits⟩, Option.getD_some]
    have := Decimal.fitsInt64_iff.mp hfits
    omega
  · -- Refused: the sign alone says at which end of the range the integer is.
    have hnone : d.toInt64? = none := by
      rw [Option.eq_none_iff_forall_ne_some]
      intro k hk
      obtain ⟨hk', hfits'⟩ := Decimal.toInt64?_eq_some_iff.mp hk
      obtain rfl : k = n := by exact_mod_cast hk'.symm.trans hd
      exact hfits hfits'
    rw [Decimal.fitsInt64_iff] at hfits
    rw [hnone, Option.getD_none]
    split
    · next hneg =>
      have := hsign.mp hneg
      omega
    · next hneg =>
      have := mt hsign.mpr hneg
      omega

theorem position_of_outside {d : Decimal} {n : ℤ} (hd : d.toRat = n) {length : ℕ}
    (hlength : length < 2 ^ 63) (hout : ¬ (0 ≤ n ∧ n < length)) :
    position (.number d) length = .error (.indexOutOfBounds (clampInt64 n) length) := by
  have hclamp : ¬ (0 ≤ clampInt64 n ∧ clampInt64 n < length) := by
    unfold clampInt64
    omega
  unfold position
  simp only [Decimal.isInteger_iff.mpr ⟨n, hd⟩, if_true, getD_toInt64? hd, hclamp, dif_neg,
    not_false_iff]

theorem position_of_fraction {d : Decimal} (hd : ¬ ∃ n : ℤ, d.toRat = n) (length : ℕ) :
    position (.number d) length = .error (.typeMismatch "integer index" d.toText) := by
  unfold position
  simp only [mt Decimal.isInteger_iff.mp hd, if_false, Bool.false_eq_true]

section Index

variable {c : Context} {source place : NodeId} {m m₁ m₂ : Machine} {id : ListId}
variable {items : List Thunk} {v : Value}

/-- The index is looked at when list and index have been evaluated. -/
theorem index_of_eval (hlist : c.eval source m = .ok (.list id items) m₁)
    (hplace : c.eval place m₁ = .ok v m₂) :
    c.index source place m =
      (Eval.check (position v items.length) >>= fun i => c.force (items.get i)) m₂ :=
  calc c.index source place m
      = _ := Eval.bind_of_ok hlist
    _ = _ := Eval.bind_of_ok hplace

theorem index_of_position (hlist : c.eval source m = .ok (.list id items) m₁)
    (hplace : c.eval place m₁ = .ok v m₂) {i : Fin items.length}
    (hi : position v items.length = .ok i) : c.index source place m = c.force (items.get i) m₂ := by
  rw [index_of_eval hlist hplace, hi]
  rfl

theorem index_of_refused (hlist : c.eval source m = .ok (.list id items) m₁)
    (hplace : c.eval place m₁ = .ok v m₂) {cause : Cause}
    (hcause : position v items.length = .error cause) :
    c.index source place m = .error (.fault (.ofCause cause)) m₂ := by
  rw [index_of_eval hlist hplace, hcause]
  rfl

end Index

end Context

/-- **Integer conversions decide the value of a number.**  A number passes as an integer, as one
of 64 bits with a sign, or as one of 32 bits without, exactly if its value is one.  An index is
accepted exactly if it is a number whose value is a place of the list.  The element there is what
is taken from the list; another integer is out of bounds, and what is no integer has the wrong
type. -/
theorem integer_conversions_decide_value :
    (∀ d : Decimal, d.isInteger = true ↔ ∃ n : ℤ, d.toRat = n) ∧
    (∀ (d : Decimal) (n : ℤ), d.toInt64? = some n ↔ d.toRat = n ∧ -2 ^ 63 ≤ n ∧ n < 2 ^ 63) ∧
    (∀ (d : Decimal) (n : ℕ), d.toUInt32? = some n ↔ d.toRat = n ∧ n < 2 ^ 32) ∧
    (∀ (v : Value) (length : ℕ), length < 2 ^ 63 → ∀ i : Fin length,
      Context.position v length = .ok i ↔ ∃ d, v = .number d ∧ d.toRat = (i : ℕ)) ∧
    ∀ (c : Context) (source place : NodeId) (m m₁ m₂ : Machine) (id : ListId) (items : List Thunk)
      (d : Decimal), items.length < 2 ^ 63 → c.eval source m = .ok (.list id items) m₁ →
      c.eval place m₁ = .ok (.number d) m₂ →
      (∀ i : Fin items.length, d.toRat = (i : ℕ) →
        c.index source place m = c.force (items.get i) m₂) ∧
      (∀ n : ℤ, d.toRat = n → ¬ (0 ≤ n ∧ n < items.length) → c.index source place m =
        .error (.fault (.ofCause (.indexOutOfBounds (clampInt64 n) items.length))) m₂) ∧
      ((¬ ∃ n : ℤ, d.toRat = n) → c.index source place m =
        .error (.fault (.ofCause (.typeMismatch "integer index" d.toText))) m₂) := by
  have hposition : ∀ (v : Value) (length : ℕ), length < 2 ^ 63 → ∀ i : Fin length,
      Context.position v length = .ok i ↔ ∃ d, v = .number d ∧ d.toRat = (i : ℕ) :=
    fun v length hlength i => Context.position_eq_ok_iff (by omega)
  refine ⟨fun d => Decimal.isInteger_iff, fun d n => ?_, fun d n => Decimal.toUInt32?_eq_some_iff,
    hposition, ?_⟩
  · rw [Decimal.toInt64?_eq_some_iff, Decimal.fitsInt64_iff]
  · intro c source place m m₁ m₂ id items d hlength hlist hplace
    refine ⟨fun i hi => ?_, fun n hn hout => ?_, fun hd => ?_⟩
    · exact Context.index_of_position hlist hplace ((hposition _ _ hlength i).mpr ⟨d, rfl, hi⟩)
    · exact Context.index_of_refused hlist hplace (Context.position_of_outside hn hlength hout)
    · exact Context.index_of_refused hlist hplace (Context.position_of_fraction hd _)

/-- The second element of a list of two, by an index that is written `1.0`. -/
def secondOfTwo : Expr := .index (.list [.bool true, .void]) (.decimal ⟨10, 1⟩)

theorem second_of_two_selected :
    let s := ((Session.bare 1).add secondOfTwo).2
    let c := s.program.context 2 1 2
    ((Session.bare 1).add secondOfTwo).1 = .ok ⟨4⟩ ∧
      Context.position (.number ⟨10, 1⟩) 2 = .ok 1 ∧
      ∃ m', c.index ⟨2⟩ ⟨3⟩ (s.machine .emptyBuffer) = .ok .void m' := by
  intro s c
  have hvalue : (⟨10, 1⟩ : Decimal).toRat = ((1 : Fin 2) : ℕ) := by norm_num [Decimal.toRat]
  obtain ⟨m₁, hlist, hplace⟩ : ∃ m₁,
      c.eval ⟨2⟩ (s.machine .emptyBuffer) =
        .ok (.list ⟨0⟩ [.deferred ⟨0⟩ ⟨0⟩, .deferred ⟨1⟩ ⟨0⟩]) m₁ ∧
      c.eval ⟨3⟩ m₁ = .ok (.number ⟨10, 1⟩) m₁ := ⟨_, rfl, rfl⟩
  obtain ⟨-, -, -, hposition, hindex⟩ := integer_conversions_decide_value
  obtain ⟨hselected, -⟩ := hindex c ⟨2⟩ ⟨3⟩ _ _ _ _ _ _ (by decide) hlist hplace
  exact ⟨rfl, (hposition _ 2 (by decide) 1).mpr ⟨_, rfl, hvalue⟩, _, (hselected 1 hvalue).trans rfl⟩

/-! ### Truncation -/

/-- A refused conversion is reported as a number that is too large. -/
theorem Operation.repeatCounts_of_long (n : Nat) {d : Decimal}
    (hd : Decimal.maxExponent < d.scale) :
    repeatCounts n d = .error (.outsideDomain "list repetition"
      ("cannot repeat a list " ++ d.abs.toText ++ " times")) := by
  have hnone : d.abs.truncToInt64? = none := by
    rw [Option.eq_none_iff_forall_ne_some]
    intro n hn
    have hscale := (Decimal.truncToInt64?_eq_some_iff.mp hn).1
    rw [Repeatable.scale_abs] at hscale
    exact hscale.not_gt hd
  unfold repeatCounts
  simp only [hnone]

/-- **Truncation depends on the number of digits.**  A number is cut to an integer toward zero
exactly if that integer has 64 bits and the number is written with at most `maxExponent` digits
after the point.  With more digits even a number below one is refused, although it should be cut
to zero.  So two forms of one number are treated alike if both have few enough digits, or
neither, and a list cannot be repeated by a number with too many. -/
theorem truncation_limited_by_digits (d : Decimal) :
    (∀ n : ℤ, d.truncToInt64? = some n ↔ d.scale ≤ Decimal.maxExponent ∧
      n = Decimal.truncate d.toRat ∧ -2 ^ 63 ≤ n ∧ n < 2 ^ 63) ∧
    (|d.toRat| < 1 →
      d.truncToInt64? = if d.scale ≤ Decimal.maxExponent then some 0 else none) ∧
    (∀ e : Decimal, e.toRat = d.toRat →
      (e.scale ≤ Decimal.maxExponent ↔ d.scale ≤ Decimal.maxExponent) →
      e.truncToInt64? = d.truncToInt64?) ∧
    (Decimal.maxExponent < d.scale → ∀ items : List Thunk,
      Operation.repeatItems items d = .error (.outsideDomain "list repetition"
        ("cannot repeat a list " ++ d.abs.toText ++ " times"))) := by
  have hiff : ∀ (e : Decimal) (n : ℤ), e.truncToInt64? = some n ↔ e.scale ≤ Decimal.maxExponent ∧
      n = Decimal.truncate e.toRat ∧ -2 ^ 63 ≤ n ∧ n < 2 ^ 63 := by
    intro e n
    rw [Decimal.truncToInt64?_eq_some_iff, Decimal.fitsInt64_iff]
  refine ⟨hiff d, fun hsmall => ?_, fun e hvalue hscale => ?_, fun hlong items => ?_⟩
  · apply Option.ext
    intro n
    rw [hiff d, Decimal.truncate_eq_zero_of_abs_lt_one hsmall]
    split
    · next hscale =>
      rw [Option.some.injEq]
      omega
    · next hscale => simp [hscale]
  · apply Option.ext
    intro n
    rw [hiff e, hiff d, hvalue, hscale]
  · rw [Operation.repeatItems, Operation.repeatCounts_of_long items.length hlong]
    rfl

/-- A number as small as `1e-5000000000` is refused, and zero is if it is written with as many
digits. -/
theorem smallest_numbers_not_truncated :
    |(⟨1, 5000000000⟩ : Decimal).toRat| < 1 ∧ Decimal.truncToInt64? ⟨1, 5000000000⟩ = none ∧
      (⟨0, 5000000000⟩ : Decimal).toRat = (⟨0, 0⟩ : Decimal).toRat ∧
      Decimal.truncToInt64? ⟨0, 5000000000⟩ = none ∧ Decimal.truncToInt64? ⟨0, 0⟩ = some 0 ∧
      Operation.repeatItems [Thunk.forced .void] ⟨1, 5000000000⟩ =
        .error (.outsideDomain "list repetition"
          ("cannot repeat a list " ++ (Decimal.abs ⟨1, 5000000000⟩).toText ++ " times")) := by
  have hlong : ¬ (5000000000 : ℤ) ≤ Decimal.maxExponent := by decide
  have hsmall : |(⟨1, 5000000000⟩ : Decimal).toRat| < 1 :=
    (Decimal.abs_toRat_lt _).trans_le (zpow_le_one_of_nonpos₀ (by norm_num) (by decide))
  have hzero : ∀ s : ℤ, (⟨0, s⟩ : Decimal).toRat = 0 := fun s => Decimal.toRat_eq_zero_of_isZero rfl
  have hbelow : ∀ s : ℤ, |(⟨0, s⟩ : Decimal).toRat| < 1 := fun s => by rw [hzero]; simp
  obtain ⟨-, hcut, -, hrepeat⟩ := truncation_limited_by_digits ⟨1, 5000000000⟩
  refine ⟨hsmall, ?_, (hzero _).trans (hzero _).symm, ?_, ?_, hrepeat (not_le.mp hlong) _⟩
  · rw [hcut hsmall, if_neg hlong]
  · rw [(truncation_limited_by_digits _).2.1 (hbelow _), if_neg hlong]
  · rw [(truncation_limited_by_digits _).2.1 (hbelow _), if_pos (by decide)]

end LazyExpr
