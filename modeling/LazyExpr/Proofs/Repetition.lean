/-
LazyExpr/Proofs/Repetition.lean

The product of a list and a number.

The number of elements of a product is put together from the whole part of the number, by one
conversion to 64 bits, and from its fraction, by another one that falls back to zero and is cut
to the length of the list.  Where the number is written with few enough digits, and the elements of
the list and of the product can be counted, neither conversion fails and nothing is cut
(`Repeatable`), and what is computed is `copies`: the elements over and over, up to the floor of the
product of the number and the length.  At each place of it stands the element whose place is the
remainder by the length (`getElem?_copies`).

A product whose elements can be counted may still have more of them than a list has room for.  Then
no list is built, and the evaluation stops without a fault.

A negative number gives the same in reverse.  The elements are taken as they are, so deferred
ones stay deferred.
-/
import LazyExpr.Proofs.Place

namespace LazyExpr

namespace Operation

/-! ### Copies -/

section Copies

variable {α : Type} {items : List α} {x : ℚ}

/-- The elements over and over, as often as a number that is not negative says. -/
def copies (items : List α) (x : ℚ) : List α :=
  (List.replicate ⌊x⌋₊ items).flatten ++ items.take ⌊Int.fract x * items.length⌋₊

/-- The floor of the product, from the whole part and the fraction. -/
theorem floor_mul_natCast (hx : 0 ≤ x) (n : ℕ) : ⌊x * n⌋₊ = ⌊x⌋₊ * n + ⌊Int.fract x * n⌋₊ := by
  have hrest : 0 ≤ Int.fract x * n := mul_nonneg (Int.fract_nonneg x) (Nat.cast_nonneg n)
  have hsplit : x * n = Int.fract x * n + (⌊x⌋₊ * n : ℕ) := by
    rw [Nat.cast_mul, ← add_mul, natCast_floor_eq_intCast_floor hx, Int.fract_add_floor]
  rw [hsplit, Nat.floor_add_natCast hrest, Nat.add_comm]

theorem floor_fract_mul_le (x : ℚ) (n : ℕ) : ⌊Int.fract x * n⌋₊ ≤ n := by
  refine Nat.floor_le_of_le ?_
  exact mul_le_of_le_one_left (Nat.cast_nonneg n) (Int.fract_lt_one x).le

theorem length_copies (items : List α) (hx : 0 ≤ x) :
    (copies items x).length = ⌊x * items.length⌋₊ := by
  have hle := floor_fract_mul_le x items.length
  rw [floor_mul_natCast hx, copies, List.length_append, List.length_flatten, List.map_replicate,
    List.sum_replicate_nat, List.length_take, Nat.min_eq_left hle]

/-- Taking off a copy leads to the same element, as long as there are copies left. -/
theorem getElem?_copies_append {k part i : ℕ} (hpart : part ≤ items.length)
    (hi : i < k * items.length + part) :
    ((List.replicate k items).flatten ++ items.take part)[i]? = items[i % items.length]? := by
  induction k generalizing i with
  | zero =>
    have hlt : i < part := by omega
    rw [List.replicate_zero, List.flatten_nil, List.nil_append, List.getElem?_take_of_lt hlt,
      Nat.mod_eq_of_lt (by omega)]
  | succ k ih =>
    rw [Nat.succ_mul] at hi
    rw [List.replicate_succ, List.flatten_cons, List.append_assoc, List.getElem?_append]
    split
    · next hlt => rw [Nat.mod_eq_of_lt hlt]
    · next hge => rw [ih (by omega), ← Nat.mod_eq_sub_mod (by omega)]

theorem getElem?_copies (items : List α) (hx : 0 ≤ x) {i : ℕ} (hi : i < (copies items x).length) :
    (copies items x)[i]? = items[i % items.length]? := by
  rw [length_copies items hx, floor_mul_natCast hx] at hi
  exact getElem?_copies_append (floor_fract_mul_le x items.length) hi

theorem copies_natCast (items : List α) (k : ℕ) :
    copies items (k : ℚ) = (List.replicate k items).flatten := by
  simp [copies]

/-- So many copies and so many more. -/
theorem copies_add (items : List α) (j k : ℕ) :
    copies items ((j : ℚ) + k) = copies items j ++ copies items k := by
  rw [← Nat.cast_add, copies_natCast, copies_natCast, copies_natCast, List.replicate_add,
    List.flatten_append]

end Copies

/-! ### The computation -/

/-- The elements of a list of `n` elements, and of `c` times the list, can be counted.  Whether there
is room for them is another question: `Eval.listCapacity` is smaller than both bounds. -/
structure Repeatable (n : ℕ) (c : Decimal) : Prop where
  digits : c.scale ≤ Decimal.maxExponent
  whole : ⌊|c.toRat|⌋₊ ≤ 9223372036854775807
  items : n ≤ 9223372036854775807
  total : ⌊|c.toRat| * n⌋₊ ≤ 18446744073709551615

namespace Repeatable

variable {n : ℕ} {c : Decimal}

theorem fitsInt64_of_le {k : ℕ} (h : k ≤ 9223372036854775807) : Decimal.fitsInt64 k = true := by
  rw [Decimal.fitsInt64, decide_eq_true_iff]
  omega

theorem scale_abs (c : Decimal) : c.abs.scale = c.scale := by
  unfold Decimal.abs
  split <;> rfl

theorem truncToInt64?_abs (h : Repeatable n c) : c.abs.truncToInt64? = some (⌊|c.toRat|⌋₊ : ℤ) := by
  have hfloor : (⌊|c.toRat|⌋₊ : ℤ) = ⌊c.abs.toRat⌋ := by
    rw [Decimal.toRat_abs, Int.natCast_floor_eq_floor (abs_nonneg _)]
  rw [hfloor]
  refine Decimal.truncToInt64?_of_fits ?_ ?_ ?_
  · rw [Decimal.toRat_abs]
    exact abs_nonneg _
  · rw [scale_abs]
    exact h.digits
  · rw [← hfloor]
    exact fitsInt64_of_le h.whole

/-- Neither subtracting an integer nor multiplying by one adds digits after the point. -/
theorem scale_rest_le (d : Decimal) (whole n : ℤ) :
    ((d - Decimal.ofInt whole) * Decimal.ofInt n).scale ≤ max d.scale 0 := by
  show (d.add (Decimal.ofInt whole).neg).scale + 0 ≤ _
  rw [add_zero, Decimal.add]
  split
  · exact le_max_right _ _
  · split
    · exact le_max_left _ _
    · exact le_rfl

theorem truncToInt64?_rest (h : Repeatable n c) :
    ((c.abs - Decimal.ofInt (⌊|c.toRat|⌋₊ : ℤ)) * Decimal.ofInt n).truncToInt64? =
      some (⌊Int.fract |c.toRat| * n⌋₊ : ℤ) := by
  have hrest := toRat_rest (Int.natCast_floor_eq_floor (abs_nonneg c.toRat)) n
  have hnonneg : 0 ≤ Int.fract |c.toRat| * n :=
    mul_nonneg (Int.fract_nonneg _) (Nat.cast_nonneg n)
  rw [Int.natCast_floor_eq_floor hnonneg, ← hrest]
  refine Decimal.truncToInt64?_of_fits (hrest ▸ hnonneg) ?_ ?_
  · refine (scale_rest_le _ _ _).trans (max_le ?_ (by decide))
    rw [scale_abs]
    exact h.digits
  · rw [hrest, ← Int.natCast_floor_eq_floor hnonneg]
    exact fitsInt64_of_le ((floor_fract_mul_le _ n).trans h.items)

/-- Neither the fallback of the part nor its bound by the length of the list acts. -/
theorem repeatCounts_eq (h : Repeatable n c) :
    repeatCounts n c = .ok (⌊|c.toRat|⌋₊, ⌊Int.fract |c.toRat| * n⌋₊) := by
  have hpart := floor_fract_mul_le |c.toRat| n
  have htotal := h.total
  rw [floor_mul_natCast (abs_nonneg _)] at htotal
  have hbounds : ¬ (9223372036854775808 ≤ n ∨ 18446744073709551616 ≤
      ⌊|c.toRat|⌋₊ * n + ⌊Int.fract |c.toRat| * n⌋₊) := by
    have := h.items
    omega
  unfold repeatCounts
  simp only [h.truncToInt64?_abs, h.truncToInt64?_rest, Option.getD_some, Int.toNat_natCast,
    Nat.min_eq_left hpart, if_neg hbounds]

theorem repeatLength_eq (h : Repeatable n c) : repeatLength n c = .ok ⌊|c.toRat| * n⌋₊ := by
  rw [repeatLength, h.repeatCounts_eq, floor_mul_natCast (abs_nonneg _)]
  rfl

theorem repeatItems_eq {α : Type} {items : List α} (h : Repeatable items.length c) :
    repeatItems items c = .ok
      (if c.isNegative then (copies items |c.toRat|).reverse else copies items |c.toRat|) :=
  repeatItems_of_counts h.repeatCounts_eq

theorem abs (h : Repeatable n c) : Repeatable n c.abs where
  digits := scale_abs c ▸ h.digits
  whole := by rw [Decimal.toRat_abs, abs_abs]; exact h.whole
  items := h.items
  total := by rw [Decimal.toRat_abs, abs_abs]; exact h.total

/-- What can be repeated so often can be repeated less often, an integer number of times. -/
theorem of_le (h : Repeatable n c) {d : Decimal} {a b : ℕ} (hc : c.toRat = a) (hd : d.toRat = b)
    (hle : b ≤ a) (hdigits : d.scale ≤ Decimal.maxExponent) : Repeatable n d := by
  have hwhole := h.whole
  have htotal := h.total
  rw [hc, Nat.abs_cast, Nat.floor_natCast] at hwhole
  rw [hc, Nat.abs_cast, ← Nat.cast_mul, Nat.floor_natCast] at htotal
  refine ⟨hdigits, ?_, h.items, ?_⟩
  · rw [hd, Nat.abs_cast, Nat.floor_natCast]
    exact hle.trans hwhole
  · rw [hd, Nat.abs_cast, ← Nat.cast_mul, Nat.floor_natCast]
    exact (Nat.mul_le_mul_right n hle).trans htotal

theorem repeatItems_of_nonneg {α : Type} {items : List α} (h : Repeatable items.length c)
    (hc : 0 ≤ c.toRat) : repeatItems items c = .ok (copies items c.toRat) := by
  have hsign : ¬ c.isNegative = true := fun hneg => (Decimal.isNegative_iff.1 hneg).not_ge hc
  rw [h.repeatItems_eq, if_neg hsign, abs_of_nonneg hc]

theorem repeatItems_of_neg {α : Type} {items : List α} (h : Repeatable items.length c)
    (hc : c.toRat < 0) : repeatItems items c = .ok (copies items |c.toRat|).reverse := by
  rw [h.repeatItems_eq, if_pos (Decimal.isNegative_iff.2 hc)]

end Repeatable

/-! ### The operator -/

/-- The list times the number, and the number times the list, is a new list of the elements `r`.
Nothing is forced: what forcing does makes no difference. -/
def Product (items : List Thunk) (c : Decimal) (r : List Thunk) : Prop :=
  ∀ (force : Thunk → Eval Value) (depth : Nat) (i : ListId) (m : Machine),
    BinaryOp.mul.apply force depth (.list i items) (.number c) m =
      .ok (m.store.addList r).1 { m with store := (m.store.addList r).2 } ∧
    BinaryOp.mul.apply force depth (.number c) (.list i items) m =
      .ok (m.store.addList r).1 { m with store := (m.store.addList r).2 }

/-- The list times the number, and the number times the list, stops for want of room, before
anything is built or forced. -/
def ProductOverCapacity (items : List Thunk) (c : Decimal) : Prop :=
  ∀ (force : Thunk → Eval Value) (depth : Nat) (i : ListId) (m : Machine),
    BinaryOp.mul.apply force depth (.list i items) (.number c) m = .error .overCapacity m ∧
    BinaryOp.mul.apply force depth (.number c) (.list i items) m = .error .overCapacity m

/-- Where the elements can be counted, a product is refused exactly if there is no room for
them. -/
theorem repetition_apply {items r : List Thunk} {c : Decimal} (h : Repeatable items.length c)
    (hr : repeatItems items c = .ok r) (m : Machine) :
    repetition items c m = if ⌊|c.toRat| * items.length⌋₊ ≤ Eval.listCapacity then
        .ok (m.store.addList r).1 { m with store := (m.store.addList r).2 }
      else .error .overCapacity m := by
  rw [repetition, h.repeatLength_eq, hr]
  show (Eval.reserve _ >>= fun _ => Eval.newList r) m = _
  unfold Eval.reserve
  split <;> rfl

theorem product_of_repeatItems {items r : List Thunk} {c : Decimal}
    (h : Repeatable items.length c) (hroom : ⌊|c.toRat| * items.length⌋₊ ≤ Eval.listCapacity)
    (hr : repeatItems items c = .ok r) : Product items c r := by
  intro force depth i m
  have hrepetition := repetition_apply h hr m
  rw [if_pos hroom] at hrepetition
  exact ⟨hrepetition, hrepetition⟩

theorem productOverCapacity {items : List Thunk} {c : Decimal} (h : Repeatable items.length c)
    (hover : Eval.listCapacity < ⌊|c.toRat| * items.length⌋₊) : ProductOverCapacity items c := by
  intro force depth i m
  have hrepetition := repetition_apply h h.repeatItems_eq m
  rw [if_neg (Nat.not_le.2 hover)] at hrepetition
  exact ⟨hrepetition, hrepetition⟩

theorem concatenation_apply {left right : List Thunk}
    (hroom : left.length + right.length ≤ Eval.listCapacity) (m : Machine) :
    concatenation left right m = .ok (m.store.addList (left ++ right)).1
      { m with store := (m.store.addList (left ++ right)).2 } := by
  show (Eval.reserve _ >>= fun _ => Eval.newList (left ++ right)) m = _
  rw [Eval.reserve, if_pos hroom]
  rfl

/-- **List repetition has a closed form, where there is room for it.**  A list times a number has as
many elements as the floor of the magnitude of the number times the length of the list.  They are
those of the list over and over, in reverse if the number is negative.  Repetition by the sum of two
natural numbers joins the repetitions by each.  A product with more elements than a list has room
for is no list and no fault: the evaluation stops. -/
theorem list_repetition_closed_form (items : List Thunk) :
    (∀ c : Decimal, Repeatable items.length c →
      (⌊|c.toRat| * items.length⌋₊ ≤ Eval.listCapacity →
        ∃ r, Product items c r ∧ r.length = ⌊|c.toRat| * items.length⌋₊ ∧
          (0 ≤ c.toRat → ∀ i < r.length, r[i]? = items[i % items.length]?) ∧
          (c.toRat < 0 → ∃ r', Product items c.abs r' ∧ r = r'.reverse)) ∧
      (Eval.listCapacity < ⌊|c.toRat| * items.length⌋₊ → ProductOverCapacity items c)) ∧
    ∀ (j k : Decimal) (a b : ℕ), j.toRat = a → k.toRat = b →
      j.scale ≤ Decimal.maxExponent → k.scale ≤ Decimal.maxExponent →
      Repeatable items.length (j + k) → (a + b) * items.length ≤ Eval.listCapacity →
      ∃ r s, Product items j r ∧ Product items k s ∧ Product items (j + k) (r ++ s) ∧
        ∀ (force : Thunk → Eval Value) (depth : Nat) (x y : ListId) (m : Machine),
          BinaryOp.add.apply force depth (.list x r) (.list y s) m =
            .ok (m.store.addList (r ++ s)).1 { m with store := (m.store.addList (r ++ s)).2 } := by
  constructor
  · refine fun c hc => ⟨fun hroom => ?_, productOverCapacity hc⟩
    rcases le_or_gt 0 c.toRat with hsign | hsign
    · refine ⟨copies items c.toRat,
        product_of_repeatItems hc hroom (hc.repeatItems_of_nonneg hsign), ?_, ?_, ?_⟩
      · rw [abs_of_nonneg hsign, length_copies items hsign]
      · exact fun _ i hi => getElem?_copies items hsign hi
      · exact fun hneg => absurd hsign hneg.not_ge
    · have hmagnitude : 0 ≤ c.abs.toRat := by
        rw [Decimal.toRat_abs]
        exact abs_nonneg _
      refine ⟨(copies items c.abs.toRat).reverse, ?_, ?_, ?_, ?_⟩
      · rw [Decimal.toRat_abs]
        exact product_of_repeatItems hc hroom (hc.repeatItems_of_neg hsign)
      · rw [List.length_reverse, length_copies items hmagnitude, Decimal.toRat_abs]
      · exact fun hnonneg => absurd hnonneg hsign.not_ge
      · refine fun _ => ⟨_, product_of_repeatItems hc.abs ?_
          (hc.abs.repeatItems_of_nonneg hmagnitude), rfl⟩
        rwa [Decimal.toRat_abs, abs_abs]
  · intro j k a b hj hk hjdigits hkdigits hsum hroom
    have htotal : (j + k).toRat = (a + b : ℕ) := by rw [Decimal.toRat_add, hj, hk, Nat.cast_add]
    have hjrepeat := hsum.of_le htotal hj (Nat.le_add_right a b) hjdigits
    have hkrepeat := hsum.of_le htotal hk (Nat.le_add_left b a) hkdigits
    -- a natural number of copies, no more of them than there is room for
    have hproduct : ∀ {d : Decimal} {l : ℕ}, Repeatable items.length d → d.toRat = l → l ≤ a + b →
        Product items d (copies items l) := by
      intro d l hd hl hle
      have hlength : ⌊|d.toRat| * items.length⌋₊ = l * items.length := by
        rw [hl, Nat.abs_cast, ← Nat.cast_mul, Nat.floor_natCast]
      rw [← hl]
      refine product_of_repeatItems hd ?_ (hd.repeatItems_of_nonneg (hl ▸ Nat.cast_nonneg _))
      exact hlength ▸ (Nat.mul_le_mul_right _ hle).trans hroom
    refine ⟨copies items a, copies items b, hproduct hjrepeat hj (Nat.le_add_right a b),
      hproduct hkrepeat hk (Nat.le_add_left b a), ?_, fun _ _ _ _ m => concatenation_apply ?_ m⟩
    · rw [← copies_add, ← Nat.cast_add]
      exact hproduct hsum htotal le_rfl
    · rw [← List.length_append, ← copies_add, ← Nat.cast_add, length_copies items (Nat.cast_nonneg _),
        ← Nat.cast_mul, Nat.floor_natCast]
      exact hroom

/-- Four elements, one and a half times in reverse, and once and twice more, where two is written
as `2.0`.  Four quintillion times their number can be counted, but there is no room for them. -/
theorem four_elements_repeated :
    let items : List Thunk := [0, 1, 2, 3].map fun k => .deferred ⟨k⟩ ⟨0⟩
    Repeatable items.length ⟨-15, 1⟩ ∧ Repeatable items.length (⟨1, 0⟩ + ⟨20, 1⟩) ∧
      Repeatable items.length ⟨4000000000000000000, 0⟩ ∧
      (∃ r, Product items ⟨-15, 1⟩ r ∧ r.length = 6 ∧
        ∃ r', Product items (Decimal.abs ⟨-15, 1⟩) r' ∧ r = r'.reverse) ∧
      (∃ r s, Product items ⟨1, 0⟩ r ∧ Product items ⟨20, 1⟩ s ∧
        Product items (⟨1, 0⟩ + ⟨20, 1⟩) (r ++ s)) ∧
      ProductOverCapacity items ⟨4000000000000000000, 0⟩ := by
  intro items
  have hhalves : Decimal.toRat ⟨-15, 1⟩ = -(3 / 2) := by norm_num [Decimal.toRat]
  have hone : Decimal.toRat ⟨1, 0⟩ = (1 : ℕ) := by norm_num [Decimal.toRat]
  have htwo : Decimal.toRat ⟨20, 1⟩ = (2 : ℕ) := by norm_num [Decimal.toRat]
  have hthree : Decimal.toRat (⟨1, 0⟩ + ⟨20, 1⟩) = (3 : ℕ) := by
    rw [Decimal.toRat_add, hone, htwo]
    norm_num
  have hmany : Decimal.toRat ⟨4000000000000000000, 0⟩ = (4000000000000000000 : ℕ) := by
    norm_num [Decimal.toRat]
  have hlength : items.length = 4 := rfl
  have hfirst : Repeatable items.length ⟨-15, 1⟩ := by
    refine ⟨by decide, ?_, by decide, ?_⟩
    · rw [hhalves, abs_neg]
      exact Nat.floor_le_of_le (by norm_num)
    · rw [hhalves, hlength, abs_neg]
      exact Nat.floor_le_of_le (by norm_num)
  have hsecond : Repeatable items.length (⟨1, 0⟩ + ⟨20, 1⟩) := by
    refine ⟨by decide, ?_, by decide, ?_⟩
    · rw [hthree]
      exact Nat.floor_le_of_le (by norm_num)
    · rw [hthree, hlength]
      exact Nat.floor_le_of_le (by norm_num)
  have htotal : ⌊|Decimal.toRat ⟨4000000000000000000, 0⟩| * items.length⌋₊ =
      16000000000000000000 := by
    rw [hmany, hlength, Nat.abs_cast, ← Nat.cast_mul, Nat.floor_natCast]
  have hthird : Repeatable items.length ⟨4000000000000000000, 0⟩ := by
    refine ⟨by decide, ?_, by decide, htotal.trans_le (by norm_num)⟩
    rw [hmany, Nat.abs_cast, Nat.floor_natCast]
    norm_num
  have hsix : ⌊|Decimal.toRat ⟨-15, 1⟩| * items.length⌋₊ = 6 := by
    rw [hhalves, hlength]
    norm_num
  obtain ⟨hproduct, hsum⟩ := list_repetition_closed_form items
  obtain ⟨r, hr, hlen, -, hreverse⟩ := (hproduct ⟨-15, 1⟩ hfirst).1 (hsix ▸ by decide)
  obtain ⟨s, t, hs, ht, hst, -⟩ :=
    hsum ⟨1, 0⟩ ⟨20, 1⟩ 1 2 hone htwo (by decide) (by decide) hsecond (by decide)
  refine ⟨hfirst, hsecond, hthird, ⟨r, hr, hlen.trans hsix, hreverse (by rw [hhalves]; norm_num)⟩,
    ⟨s, t, hs, ht, hst⟩, (hproduct _ hthird).2 (htotal ▸ by decide)⟩

end Operation

end LazyExpr
