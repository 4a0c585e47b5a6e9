/-
LazyExpr/Proofs/Place.lean

Places in lists, and lengths of lists, that are computed from numbers.

A decimal is made a place, or a length, by several conversions that each have bounds of
their own.  Together they do what they should: a number is a place in a list exactly if
it is the number of one, and the part of a list that a repetition ends with is not
longer than the list.
-/
import LazyExpr.Evaluation
import LazyExpr.Proofs.Decimal.Value

namespace LazyExpr

theorem Context.items_eq_ok {v : Value} {ts : List Thunk} :
    items v = .ok ts ↔ ∃ id, v = .list id ts := by
  constructor
  · intro h
    cases v with
    | list id us =>
      cases h
      exact ⟨id, rfl⟩
    | _ => cases h
  · rintro ⟨id, rfl⟩
    rfl

/-- A value is a place in a list if it is the number of one.  Numbers beyond 64 bits are
cut to the ends of that range, where no list has a place. -/
theorem Context.position_eq_ok_iff {v : Value} {n : Nat} (hn : n ≤ 9223372036854775807) {i : Fin n} :
    position v n = .ok i ↔ ∃ d, v = .number d ∧ d.toRat = (i : Nat) := by
  constructor
  · intro h
    unfold position at h
    split at h
    · next d =>
      split at h
      · extract_lets raw at h
        have hraw : d.toInt64?.getD _ = raw := rfl
        split at h
        · next hin =>
          have hd : d.toInt64? = some raw := by
            rcases hd : d.toInt64? with - | r
            · rw [hd, Option.getD_none] at hraw
              split at hraw <;> omega
            · rw [← hraw, hd, Option.getD_some]
          obtain rfl := Except.ok.inj h
          refine ⟨d, rfl, ?_⟩
          rw [(Decimal.toInt64?_eq_some_iff.mp hd).1, ← Int.cast_natCast]
          exact congrArg Int.cast (Int.toNat_of_nonneg hin.1).symm
        · cases h
      · cases h
    · cases h
  · rintro ⟨d, rfl, hd⟩
    have hlt := i.isLt
    have hinteger : d.isInteger = true := Decimal.isInteger_iff.mpr ⟨(i : Nat), hd⟩
    have hvalue : d.toInt64? = some ((i : Nat) : Int) := by
      refine Decimal.toInt64?_eq_some_iff.mpr ⟨hd, ?_⟩
      rw [Decimal.fitsInt64, decide_eq_true_iff]
      omega
    unfold position
    simp only [hinteger, if_true, hvalue, Option.getD_some]
    rw [dif_pos (by omega)]
    rfl

/-- The rest of a repetition, from the digits after the point. -/
theorem Operation.toRat_rest {count : Decimal} {whole : Int} (hwhole : whole = ⌊|count.toRat|⌋)
    (n : Nat) : ((count.abs - Decimal.ofInt whole) * Decimal.ofInt n).toRat =
      Int.fract |count.toRat| * n := by
  rw [Decimal.toRat_mul, Decimal.toRat_sub, Decimal.toRat_abs, Decimal.toRat_ofInt,
    Decimal.toRat_ofInt, hwhole]
  rfl

theorem Operation.part_le {count : Decimal} {whole : Int} (hwhole : whole = ⌊|count.toRat|⌋)
    (n : Nat) :
    (((count.abs - Decimal.ofInt whole) * Decimal.ofInt n).truncToInt64?.getD 0 : ℚ) ≤
      Int.fract |count.toRat| * n := by
  have hrest := toRat_rest hwhole n
  have hnonneg : 0 ≤ Int.fract |count.toRat| * n :=
    mul_nonneg (Int.fract_nonneg _) (Nat.cast_nonneg _)
  rcases hk : ((count.abs - Decimal.ofInt whole) * Decimal.ofInt n).truncToInt64? with - | k
  · simpa using hnonneg
  · rw [← hrest] at hnonneg ⊢
    rw [Option.getD_some, Decimal.floor_toRat_of_truncToInt64? hnonneg hk]
    exact Int.floor_le _

/-- A list is repeated as often as the whole part of the magnitude says, and what follows
is no longer than its fraction says. -/
theorem Operation.repeatCounts_eq_ok {n copies part : Nat} {count : Decimal}
    (h : repeatCounts n count = .ok (copies, part)) :
    (copies : ℤ) = ⌊|count.toRat|⌋ ∧ (part : ℚ) ≤ Int.fract |count.toRat| * n ∧ part ≤ n := by
  unfold repeatCounts at h
  rcases hw : count.abs.truncToInt64? with - | whole
  · simp only [hw] at h
    cases h
  have hmagnitude : 0 ≤ |count.toRat| := abs_nonneg _
  have hwhole : whole = ⌊|count.toRat|⌋ := by
    rw [← Decimal.toRat_abs] at hmagnitude ⊢
    exact Decimal.floor_toRat_of_truncToInt64? hmagnitude hw
  have hpart := part_le hwhole n
  simp only [hw] at h
  generalize ((count.abs - Decimal.ofInt whole) *
    Decimal.ofInt n).truncToInt64?.getD 0 = k at h hpart
  have hnat : (k.toNat : ℚ) ≤ Int.fract |count.toRat| * n := by
    rw [← Int.cast_natCast, Int.toNat_eq_max, Int.cast_max]
    exact max_le hpart (mul_nonneg (Int.fract_nonneg _) (Nat.cast_nonneg _))
  have hle : k.toNat ≤ n := by
    have hlength : (0 : ℚ) ≤ n := Nat.cast_nonneg _
    have hone := mul_le_mul_of_nonneg_right (Int.fract_lt_one |count.toRat|).le hlength
    rw [one_mul] at hone
    exact_mod_cast hnat.trans hone
  rw [Nat.min_eq_left hle] at h
  split at h
  · cases h
  · cases h
    refine ⟨?_, hnat, hle⟩
    rw [← hwhole]
    exact Int.toNat_of_nonneg (hwhole ▸ Int.floor_nonneg.mpr hmagnitude)

theorem Operation.repeatItems_of_counts {α : Type} {items : List α} {count : Decimal}
    {copies part : Nat} (h : repeatCounts items.length count = .ok (copies, part)) :
    repeatItems items count =
      .ok (if count.isNegative then
        ((List.replicate copies items).flatten ++ items.take part).reverse
      else (List.replicate copies items).flatten ++ items.take part) := by
  unfold repeatItems
  rw [h]
  cases items with
  | nil =>
    rw [List.take_nil, List.flatten_replicate_nil, List.append_nil, List.reverse_nil, ite_self]
    exact congrArg Except.ok (ite_self _)
  | cons a as => rfl

theorem Operation.repeatItems_eq_ok {α : Type} {items r : List α} {count : Decimal}
    (h : repeatItems items count = .ok r) :
    ∃ copies part : Nat, (copies : ℤ) = ⌊|count.toRat|⌋ ∧
      (part : ℚ) ≤ Int.fract |count.toRat| * items.length ∧ part ≤ items.length ∧
      (if count.isNegative then r.reverse else r) =
        (List.replicate copies items).flatten ++ items.take part := by
  rcases hc : repeatCounts items.length count with c | ⟨copies, part⟩
  · unfold repeatItems at h
    rw [hc] at h
    cases h
  obtain ⟨hcopies, hpart, hle⟩ := repeatCounts_eq_ok hc
  refine ⟨copies, part, hcopies, hpart, hle, ?_⟩
  rw [repeatItems_of_counts hc] at h
  obtain rfl := Except.ok.inj h
  cases count.isNegative with
  | false => rfl
  | true => exact List.reverse_reverse _

end LazyExpr
