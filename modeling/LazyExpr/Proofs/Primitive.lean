/-
LazyExpr/Proofs/Primitive.lean

The operations on values keep to every judgement.

These are the parts of an evaluation that evaluate no nodes themselves, except by forcing the
thunks of a value: the check of a constructor's fields, the walks through a value that
compare and print it, and the operators.  On arguments that stand for each other, and with
ways to force a thunk that agree (`Judgement.Forces`), they agree.  What they raise says what
is the case (`Apt`).

A walk goes down by levels.  The induction is on the rank of the values, which a judgement
may take for their size or for the depth that is left; how a walk ends at the last level
is for the judgement to say.
-/
import LazyExpr.Proofs.Decimal.Failure
import LazyExpr.Proofs.Judgement

namespace LazyExpr

/-! ### Lists in lockstep -/

section Lists

variable {α β γ δ : Type} {R : α → β → Prop} {Q : γ → δ → Prop}

theorem forall₂_find {f : α → Bool} {g : β → Bool} {xs : List α} {ys : List β}
    (h : List.Forall₂ R xs ys) (hfg : ∀ a b, R a b → f a = g b) :
    Option.Rel R (xs.find? f) (ys.find? g) := by
  induction h with
  | nil => exact .none
  | @cons a b xs ys hab _ ih =>
    rw [List.find?_cons, List.find?_cons, ← hfg a b hab]
    cases f a with
    | true => exact .some hab
    | false => exact ih

theorem forall₂_any {f : α → Bool} {g : β → Bool} {xs : List α} {ys : List β}
    (h : List.Forall₂ R xs ys) (hfg : ∀ a b, R a b → f a = g b) : xs.any f = ys.any g := by
  induction h with
  | nil => rfl
  | @cons a b xs ys hab _ ih => rw [List.any_cons, List.any_cons, hfg a b hab, ih]

theorem forall₂_all {f : α → Bool} {g : β → Bool} {xs : List α} {ys : List β}
    (h : List.Forall₂ R xs ys) (hfg : ∀ a b, R a b → f a = g b) : xs.all f = ys.all g := by
  induction h with
  | nil => rfl
  | @cons a b xs ys hab _ ih => rw [List.all_cons, List.all_cons, hfg a b hab, ih]

theorem forall₂_map_eq {f : α → γ} {g : β → γ} {xs : List α} {ys : List β}
    (h : List.Forall₂ R xs ys) (hfg : ∀ a b, R a b → f a = g b) : xs.map f = ys.map g := by
  induction h with
  | nil => rfl
  | @cons a b xs ys hab _ ih => rw [List.map_cons, List.map_cons, hfg a b hab, ih]

theorem forall₂_isEmpty {xs : List α} {ys : List β} (h : List.Forall₂ R xs ys) :
    xs.isEmpty = ys.isEmpty := by
  cases h <;> rfl

theorem forall₂_prod {xs : List α} {ys : List β} {us : List γ} {vs : List δ}
    (h : List.Forall₂ R xs ys) (h' : List.Forall₂ Q us vs) :
    List.Forall₂ (fun a b => R a.1 b.1 ∧ Q a.2 b.2) (xs.zip us) (ys.zip vs) := by
  induction h generalizing us vs with
  | nil => exact .nil
  | cons hab _ ih =>
    cases h' with
    | nil => exact .nil
    | cons huv h' => exact .cons ⟨hab, huv⟩ (ih h')

theorem forall₂_set {xs : List α} {ys : List β} {a : α} {b : β} (h : List.Forall₂ R xs ys)
    (hab : R a b) (i : Nat) : List.Forall₂ R (xs.set i a) (ys.set i b) := by
  induction h generalizing i with
  | nil => exact .nil
  | cons hxy h ih =>
    cases i with
    | zero => exact .cons hab h
    | succ i => exact .cons hxy (ih i)

/-- A list is repeated alike, whatever it holds. -/
theorem forall₂_repeatItems {xs : List α} {ys : List β} (h : List.Forall₂ R xs ys) (n : Decimal) :
    OnExcept (List.Forall₂ R) (Operation.repeatItems xs n) (Operation.repeatItems ys n) := by
  have copies : ∀ k, List.Forall₂ (List.Forall₂ R) (List.replicate k xs) (List.replicate k ys) := by
    intro k
    induction k with
    | zero => exact .nil
    | succ k ih => exact .cons h ih
  have whole : ∀ k i, List.Forall₂ R
      (if xs.isEmpty then [] else (List.replicate k xs).flatten ++ xs.take i)
      (if ys.isEmpty then [] else (List.replicate k ys).flatten ++ ys.take i) := by
    intro k i
    rw [forall₂_isEmpty h]
    split
    · exact .nil
    · exact List.rel_append (List.rel_flatten (copies k)) (List.forall₂_take i h)
  unfold Operation.repeatItems
  rw [h.length_eq]
  rcases Operation.repeatCounts ys.length n with c | ⟨k, i⟩
  · exact .error c
  · refine .ok ?_
    split
    · exact List.rel_reverse (whole k i)
    · exact whole k i

end Lists

namespace Relations

variable {p p' : Program} {R : Relations p p'} {thunk : Thunk → Thunk → Prop}

/-! ### Names, fields and functions -/

theorem name_beq {a a' b b' : Name} (ha : R.name a a') (hb : R.name b b') :
    (a == b) = (a' == b') := by
  have h := R.name_iff ha hb
  by_cases e : a = b
  · rw [beq_iff_eq.2 e, beq_iff_eq.2 (h.1 e)]
  · rw [beq_eq_false_iff_ne.2 e, beq_eq_false_iff_ne.2 (mt h.2 e)]

theorem isEmpty_eq {n n' : Name} (h : R.name n n') : n.isEmpty = n'.isEmpty := by
  have he := R.empty_iff h
  unfold Name.isEmpty
  by_cases e : n = Name.empty
  · rw [beq_iff_eq.2 e, beq_iff_eq.2 (he.1 e)]
  · rw [beq_eq_false_iff_ne.2 e, beq_eq_false_iff_ne.2 (mt he.2 e)]

theorem texts_eq {ns ns' : List Name} (h : List.Forall₂ R.name ns ns') :
    ns.map p.names.text = ns'.map p'.names.text :=
  forall₂_map_eq h fun _ _ hn => R.text_eq hn

theorem names_iff {as as' bs bs' : List Name} (ha : List.Forall₂ R.name as as')
    (hb : List.Forall₂ R.name bs bs') : as = bs ↔ as' = bs' := by
  induction ha generalizing bs bs' with
  | nil => cases hb <;> simp
  | cons ha _ ih =>
    cases hb with
    | nil => simp
    | cons hb hbs => simp only [List.cons.injEq, R.name_iff ha hb, ih hbs]

theorem contains_eq {n n' : Name} {ns ns' : List Name} (hn : R.name n n')
    (h : List.Forall₂ R.name ns ns') : ns.contains n = ns'.contains n' := by
  rw [List.contains_eq_any_beq, List.contains_eq_any_beq]
  exact forall₂_any h fun _ _ hm => name_beq hn hm

theorem function_beq {f f' g g' : Function} (hf : R.OnFunction f f') (hg : R.OnFunction g g') :
    (f == g) = (f' == g') := by
  have h : f = g ↔ f' = g' := by
    obtain ⟨n, ps, b⟩ := f
    obtain ⟨n', ps', b'⟩ := f'
    obtain ⟨m, qs, d⟩ := g
    obtain ⟨m', qs', d'⟩ := g'
    simp only [Function.mk.injEq, R.name_iff hf.name hg.name, names_iff hf.params hg.params,
      R.node_iff hf.body hg.body]
  by_cases e : f = g
  · rw [beq_iff_eq.2 e, beq_iff_eq.2 (h.1 e)]
  · rw [beq_eq_false_iff_ne.2 e, beq_eq_false_iff_ne.2 (mt h.2 e)]

theorem field_rel {d d' : Instance} {n n' : Name} (hd : R.OnRecord thunk d d')
    (hn : R.name n n') : Option.Rel thunk (d.field? n) (d'.field? n') := by
  have h := forall₂_find hd.fields fun f f' hf => name_beq hf.name hn
  unfold Instance.field?
  generalize d.fields.find? _ = t, d'.fields.find? _ = t' at h
  cases h with
  | none => exact .none
  | some hf => exact .some hf.thunk

theorem tag_eq {d d' : Instance} (hd : R.OnRecord thunk d d') :
    d.tag p.names = d'.tag p'.names := by
  unfold Instance.tag
  rw [R.text_eq hd.type, R.text_eq hd.variant]

/-! ### Constructors -/

theorem missing_rel {v v' : Variant} {ns ns' : List Name} (hv : R.OnVariant v v')
    (h : List.Forall₂ R.name ns ns') : List.Forall₂ R.name (v.missing ns) (v'.missing ns') := by
  refine List.rel_filter ?_ hv.fields
  intro f f' hf
  show (!ns.contains f) = true ↔ (!ns'.contains f') = true
  rw [contains_eq hf h]

theorem unexpectedAfter_rel {v v' : Variant} {seen seen' ns ns' : List Name}
    (hv : R.OnVariant v v') (hs : List.Forall₂ R.name seen seen')
    (h : List.Forall₂ R.name ns ns') :
    List.Forall₂ R.name (v.unexpectedAfter seen ns) (v'.unexpectedAfter seen' ns') := by
  induction h generalizing seen seen' with
  | nil => exact .nil
  | cons hn _ ih =>
    unfold Variant.unexpectedAfter
    simp only [contains_eq hn hv.fields, contains_eq hn hs]
    split
    · exact .cons hn (ih (.cons hn hs))
    · exact ih (.cons hn hs)

theorem checkFields_eq {v v' : Variant} {t t' : Name} {ns ns' : List Name}
    (hv : R.OnVariant v v') (ht : R.name t t') (h : List.Forall₂ R.name ns ns') :
    v.checkFields p.names t ns = v'.checkFields p'.names t' ns' := by
  have hm := missing_rel hv h
  have hu : List.Forall₂ R.name (v.unexpected ns) (v'.unexpected ns') :=
    unexpectedAfter_rel hv .nil h
  unfold Variant.checkFields
  simp only [forall₂_isEmpty hm, forall₂_isEmpty hu, texts_eq hm, texts_eq hu, R.text_eq ht,
    R.text_eq hv.name]

theorem arrange_rel {v v' : Variant} {fs fs' : List (Name × Thunk)} (hv : R.OnVariant v v')
    (h : List.Forall₂ (R.OnSlot thunk) fs fs') :
    List.Forall₂ (R.OnSlot thunk) (v.arrange fs) (v'.arrange fs') := by
  refine List.rel_filterMap ?_ hv.fields
  intro n n' hn
  exact forall₂_find h fun f f' hf => name_beq hf.name hn

/-! ### Texts -/

theorem display_function_eq {f f' : Function} (hf : R.OnFunction f f') :
    Display.function p.names f = Display.function p'.names f' := by
  unfold Display.function
  rw [isEmpty_eq hf.name, R.text_eq hf.name]

theorem display_list_eq {w : R.World} {vs vs' : List Value} (texts : List String)
    (h : List.Forall₂ (R.value w) vs vs') : Display.list vs texts = Display.list vs' texts := by
  unfold Display.list
  rw [forall₂_isEmpty h, forall₂_all h fun _ _ hv => isChar_eq hv]

end Relations

/-! ### Walks level by level -/

section Below

variable (force : Thunk → Eval Value) (d : Nat)

theorem Value.equal_list (i j : ListId) (xs ys : List Thunk) :
    Value.equal force d (.list i xs) (.list j ys) =
      if i = j then pure true
      else Eval.below (fun d => Equality.items force (Value.equal force d) xs ys) d := by
  cases d <;> rfl

theorem Value.equal_data (i j : InstanceId) :
    Value.equal force d (.data i) (.data j) =
      if i = j then pure true
      else Eval.below (fun d => do
        let x ← Eval.instanceAt i
        let y ← Eval.instanceAt j
        Equality.instances force (Value.equal force d) x y) d := by
  cases d <;> rfl

theorem Value.display_list (names : Names) (i : ListId) (items : List Thunk) :
    Value.display names force d (.list i items) =
      Eval.below (fun d => do
        let values ← items.mapM force
        let texts ← values.mapM (Value.display names force d)
        return Display.list values texts) d := by
  cases d <;> rfl

theorem Value.display_data (names : Names) (i : InstanceId) :
    Value.display names force d (.data i) =
      Eval.below (fun d => do
        let x ← Eval.instanceAt i
        let fields ← x.fields.mapM fun (name, t) => do
          let v ← force t
          let text ← Value.display names force d v
          return names.text name ++ ": " ++ text
        return Display.data (x.tag names) fields) d := by
  cases d <;> rfl

end Below

namespace Judgement

open Relations

variable {p p' : Program} {J : Judgement p p'} {w : J.World} {k : J.Stance}

/-! ### Walks through values -/

/-- Two ways to force a thunk agree, and where the thunk holds a value, they give it back. -/
structure Forces (J : Judgement p p') (k : J.Stance) (force force' : J.Index → Thunk → Eval Value) :
    Prop where
  value : ∀ ⦃w t t'⦄, J.thunk w t t' →
    J.Agree w k J.value (fun i => force i t) fun i => force' i t'
  rank : ∀ {n} ⦃w t t'⦄, J.Holding (J.rank n) w t t' →
    J.Agree w k (J.rank n) (fun i => force i t) fun i => force' i t'

section Walks

variable {force force' : J.Index → Thunk → Eval Value}

section Pairs

variable {V : J.World → Value → Value → Prop} (hV : J.Stable V)
variable (hforce : ∀ ⦃w t t'⦄, J.Holding V w t t' →
  J.Agree w k V (fun i => force i t) fun i => force' i t')
variable {equal equal' : J.Index → Value → Value → Eval Bool}
variable (hequal : ∀ ⦃w a a' b b'⦄, V w a a' → V w b b' →
  J.Agree w k (fun _ => Eq) (fun i => equal i a b) fun i => equal' i a' b')

include hV hforce hequal

/-- One pair of thunks, and then the rest. -/
theorem pair_agree {t t' u u' : Thunk} (ht : J.Holding V w t t') (hu : J.Holding V w u u')
    {rest rest' : J.Index → Eval Bool}
    (hrest : ∀ {w'}, J.le w w' → J.Agree w' k (fun _ => Eq) rest rest') :
    J.Agree w k (fun _ => Eq)
      (fun i => do
        let a ← force i t
        let b ← force i u
        if ← equal i a b then rest i else return false)
      fun i => do
        let a ← force' i t'
        let b ← force' i u'
        if ← equal' i a b then rest' i else return false := by
  refine (hforce ht).bind fun a a' h₁ ha => ?_
  refine (hforce (hV.holding h₁ hu)).bind fun b b' h₂ hb => ?_
  refine (hequal (hV h₂ ha) hb).bind fun r r' h₃ hr => ?_
  subst hr
  exact .ite Iff.rfl (hrest (J.le_trans (J.le_trans h₁ h₂) h₃)) (.pure rfl)

theorem allPairs_agree {ps ps' : List (Thunk × Thunk)}
    (h : List.Forall₂ (fun a b => J.Holding V w a.1 b.1 ∧ J.Holding V w a.2 b.2) ps ps') :
    J.Agree w k (fun _ => Eq) (fun i => Equality.allPairs (force i) (equal i) ps)
      fun i => Equality.allPairs (force' i) (equal' i) ps' := by
  induction ps generalizing w ps' with
  | nil =>
    cases h
    exact .pure rfl
  | cons q ps ih =>
    cases h with
    | cons hq hps =>
      refine pair_agree hV hforce hequal hq.1 hq.2 fun hle => ih (hps.imp fun _ _ hq => ?_)
      exact ⟨hV.holding hle hq.1, hV.holding hle hq.2⟩

theorem items_agree {xs xs' ys ys' : List Thunk} (hx : List.Forall₂ (J.Holding V w) xs xs')
    (hy : List.Forall₂ (J.Holding V w) ys ys') :
    J.Agree w k (fun _ => Eq) (fun i => Equality.items (force i) (equal i) xs ys)
      fun i => Equality.items (force' i) (equal' i) xs' ys' := by
  unfold Equality.items
  rw [hx.length_eq, hy.length_eq]
  exact .ite Iff.rfl (allPairs_agree hV hforce hequal (forall₂_prod hx hy)) (.pure rfl)

theorem fieldPairs_agree {ps ps' : List ((Name × Thunk) × (Name × Thunk))}
    (h : List.Forall₂ (fun a b => J.OnSlot (J.Holding V w) a.1 b.1 ∧
      J.OnSlot (J.Holding V w) a.2 b.2) ps ps') :
    J.Agree w k (fun _ => Eq) (fun i => Equality.fieldPairs (force i) (equal i) ps)
      fun i => Equality.fieldPairs (force' i) (equal' i) ps' := by
  induction ps generalizing w ps' with
  | nil =>
    cases h
    exact .pure rfl
  | cons q ps ih =>
    cases h with
    | cons hq hps =>
      unfold Equality.fieldPairs
      refine .ite (J.name_iff hq.1.name hq.2.name) ?_ (.pure rfl)
      refine pair_agree hV hforce hequal hq.1.thunk hq.2.thunk fun hle =>
        ih (hps.imp fun _ _ hq => ?_)
      exact ⟨⟨hq.1.name, hV.holding hle hq.1.thunk⟩, ⟨hq.2.name, hV.holding hle hq.2.thunk⟩⟩

theorem instances_agree {d d' e e' : Instance} (hd : J.OnRecord (J.Holding V w) d d')
    (he : J.OnRecord (J.Holding V w) e e') :
    J.Agree w k (fun _ => Eq) (fun i => Equality.instances (force i) (equal i) d e)
      fun i => Equality.instances (force' i) (equal' i) d' e' := by
  unfold Equality.instances
  refine .ite ?_ (fieldPairs_agree hV hforce hequal (forall₂_prod hd.fields he.fields)) (.pure rfl)
  rw [J.name_iff hd.type he.type, J.name_iff hd.variant he.variant, hd.fields.length_eq,
    he.fields.length_eq]

end Pairs

/-- The induction is on the rank, and the depth goes down with it. -/
theorem equal_rank {n : Nat} {d d' : J.Index → Nat} (hd : J.Depth n d d')
    (hf : J.Forces k force force') {a a' b b' : Value} (ha : J.rank n w a a')
    (hb : J.rank n w b b') :
    J.Agree w k (fun _ => Eq) (fun i => a.equal (force i) (d i) b)
      fun i => a'.equal (force' i) (d' i) b' := by
  induction n using Nat.strongRecOn generalizing w d d' a a' b b' with
  | ind n ih =>
    have hva := J.rank_value ha
    have hvb := J.rank_value hb
    cases J.form hva <;> cases J.form hvb
    case list.list =>
      simp only [Value.equal_list]
      refine .ite (J.list_iff hva hvb) (.pure rfl) ?_
      refine J.below hd ha (.list _ _) fun {m e e'} hn he => ?_
      subst hn
      -- the elements have the rank that is left
      exact items_agree (stable_rank m) hf.rank
        (fun _ _ _ _ _ ha hb => ih m (Nat.lt_succ_self m) he ha hb)
        (J.rank_list ha) (J.rank_list hb)
    case data.data hi _ _ hj =>
      simp only [Value.equal_data]
      refine .ite (J.data_iff hi hj) (.pure rfl) ?_
      refine J.below hd ha (.data _) fun {m e e'} hn he => ?_
      refine (J.instanceAt hi).bind fun x x' h₁ hx => ?_
      refine (J.instanceAt (J.data_mono h₁ hj)).bind fun y y' h₂ hy => ?_
      -- what instances hold is given any rank, since they can refer to each other in circles
      refine instances_agree stable_value hf.value (fun w a a' b b' ha hb => ?_)
        (hx.imp fun ht => stable_thunk h₂ ht) hy
      exact ih m (hn ▸ Nat.lt_succ_self m) he (J.rank_data hi ha) (J.rank_data hi hb)
    case function.function hf _ _ hg =>
      unfold Value.equal
      exact .pure (function_beq hf hg)
    all_goals
      unfold Value.equal
      exact .pure rfl

theorem equal_agree {d d' : J.Index → Nat} (hd : J.Reach d d') (hf : J.Forces k force force')
    {a a' b b' : Value} (ha : J.value w a a') (hb : J.value w b b') :
    J.Agree w k (fun _ => Eq) (fun i => a.equal (force i) (d i) b)
      fun i => a'.equal (force' i) (d' i) b' := by
  obtain ⟨n, hn, ha, hb⟩ := J.rank_pair hd ha hb
  exact equal_rank hn hf ha hb

theorem display_rank {n : Nat} {d d' : J.Index → Nat} (hd : J.Depth n d d')
    (hf : J.Forces k force force') {v v' : Value} (hv : J.rank n w v v') :
    J.Agree w k (fun _ => Eq) (fun i => v.display p.names (force i) (d i))
      fun i => v'.display p'.names (force' i) (d' i) := by
  induction n using Nat.strongRecOn generalizing w d d' v v' with
  | ind n ih =>
    cases J.form (J.rank_value hv)
    case list =>
      simp only [Value.display_list]
      refine J.below hd hv (.list _ _) fun {m e e'} hn he => ?_
      subst hn
      refine (Agree.mapM (stable_rank m).holding (stable_rank m) (J.rank_list hv) hf.rank).bind
        fun vs vs' h₁ hvs => ?_
      refine (Agree.mapM (stable_rank m) stable_eq hvs fun w u u' hu =>
        ih m (Nat.lt_succ_self m) he hu).bind fun ts ts' h₂ hts => ?_
      rw [List.forall₂_eq_eq_eq] at hts
      subst hts
      exact .pure (display_list_eq ts (hvs.imp fun _ _ hu => J.rank_value hu))
    case data hi =>
      simp only [Value.display_data]
      refine J.below hd hv (.data _) fun {m e e'} hn he => ?_
      refine (J.instanceAt hi).bind fun x x' h₁ hx => ?_
      have hslots : J.Stable fun w => J.OnSlot (J.thunk w) := fun _ _ h _ _ hs =>
        ⟨hs.name, stable_thunk h hs.thunk⟩
      refine (Agree.mapM (B := fun _ => Eq) hslots stable_eq hx.fields fun w f f' hs => ?_).bind
        fun ts ts' _ hts => ?_
      · refine (hf.value hs.thunk).bind fun u u' _ hu => ?_
        refine (ih m (hn ▸ Nat.lt_succ_self m) he (J.rank_data hi hu)).bind fun t t' _ ht => ?_
        rw [J.text_eq hs.name, ht]
        exact .pure rfl
      · rw [List.forall₂_eq_eq_eq] at hts
        subst hts
        rw [tag_eq hx]
        exact .pure rfl
    case function hg =>
      unfold Value.display
      exact .pure (display_function_eq hg)
    all_goals
      unfold Value.display
      exact .pure rfl

theorem display_agree {d d' : J.Index → Nat} (hd : J.Reach d d') (hf : J.Forces k force force')
    {v v' : Value} (hv : J.value w v v') :
    J.Agree w k (fun _ => Eq) (fun i => v.display p.names (force i) (d i))
      fun i => v'.display p'.names (force' i) (d' i) := by
  obtain ⟨n, hn, hv, -⟩ := J.rank_pair hd hv hv
  exact display_rank hn hf hv

end Walks

/-! ### Operators -/

theorem agree_decimal {x : Except Decimal.Error Decimal} (hk : J.works k)
    (hx : Decimal.Computes x) :
    J.Agree w k J.value (fun _ => Eval.decimal x) fun _ => Eval.decimal x := by
  rcases x with e | d
  · refine J.raise hk ?_
    cases e with
    | malformed text => exact absurd rfl (hx text)
    | _ => trivial
  · exact .pure (J.value_number d)

theorem mismatch_agree {a a' b b' : Value} (hk : J.works k) (op : BinaryOp)
    (ha : J.value w a a') (hb : J.value w b b') :
    J.Agree w k J.value (fun _ => Eval.raise (Operation.mismatch op a b))
      fun _ => Eval.raise (Operation.mismatch op a' b') := by
  unfold Operation.mismatch
  rw [typeName_eq ha, typeName_eq hb]
  exact J.raise hk trivial

theorem numbers_agree (hk : J.works k) (op : BinaryOp) (a b : Decimal) :
    J.Agree w k J.value (fun _ => Operation.numbers op a b) fun _ => Operation.numbers op a b := by
  unfold Operation.numbers
  split
  · exact .pure (J.value_number _)
  · exact .pure (J.value_number _)
  · exact .pure (J.value_number _)
  · exact agree_decimal hk (Decimal.computes_div a b)
  · exact agree_decimal hk (Decimal.computes_rem a b)
  · exact agree_decimal hk (Decimal.computes_pow a b)
  · exact agree_newForced (forall₂_map_self J.value_number _)
  · split
    · exact .pure (J.value_bool _)
    · exact J.raise hk trivial

theorem bools_agree (hk : J.works k) (op : BinaryOp) (a b : Bool) :
    J.Agree w k J.value (fun _ => Operation.bools op a b) fun _ => Operation.bools op a b := by
  unfold Operation.bools
  split
  · exact .pure (J.value_bool _)
  · exact .pure (J.value_bool _)
  · exact J.raise hk trivial

theorem charOfCode_agree (hk : J.works k) (code : Decimal) :
    J.Agree w k J.value (fun _ => do return .char (← Eval.check (Operation.charOfCode code)))
      fun _ => do return .char (← Eval.check (Operation.charOfCode code)) := by
  have hx : Apt (Operation.charOfCode code) := by
    unfold Operation.charOfCode
    dsimp only
    split
    · split
      · exact .ok _
      · exact .error trivial
    · exact .error trivial
  refine (agree_check (A := fun _ => Eq) hk hx (OnExcept.refl _)).bind fun c c' _ hc => ?_
  subst hc
  exact .pure (J.value_char c)

theorem numberChar_agree (hk : J.works k) (op : BinaryOp) (n : Decimal) (c : Char) :
    J.Agree w k J.value (fun _ => Operation.numberChar op n c)
      fun _ => Operation.numberChar op n c := by
  unfold Operation.numberChar
  split
  · exact charOfCode_agree hk _
  · exact charOfCode_agree hk _
  · exact J.raise hk trivial

theorem charNumber_agree (hk : J.works k) (op : BinaryOp) (c : Char) (n : Decimal) :
    J.Agree w k J.value (fun _ => Operation.charNumber op c n)
      fun _ => Operation.charNumber op c n := by
  unfold Operation.charNumber
  split
  · exact charOfCode_agree hk _
  · exact charOfCode_agree hk _
  · exact J.raise hk trivial

theorem chars_agree (hk : J.works k) (op : BinaryOp) (a b : Char) :
    J.Agree w k J.value (fun _ => Operation.chars op a b) fun _ => Operation.chars op a b := by
  unfold Operation.chars
  split
  · exact .pure (J.value_number _)
  · split
    · exact .pure (J.value_bool _)
    · exact J.raise hk trivial

theorem apt_repeatCounts (length : Nat) (n : Decimal) : Apt (Operation.repeatCounts length n) := by
  unfold Operation.repeatCounts
  dsimp only
  split
  · exact .error trivial
  · split
    · exact .error trivial
    · exact .ok _

theorem repetition_agree {ts us : List Thunk} (hk : J.works k)
    (h : List.Forall₂ (J.thunk w) ts us) (n : Decimal) :
    J.Agree w k J.value (fun _ => Operation.repetition ts n)
      fun _ => Operation.repetition us n := by
  -- both checks fail as the counts do
  have hcounts := apt_repeatCounts us.length n
  have hlength : Apt (Operation.repeatLength us.length n) := hcounts.bind fun _ => .ok _
  have hitems : Apt (Operation.repeatItems ts n) := by
    unfold Operation.repeatItems
    rw [h.length_eq]
    exact hcounts.bind fun _ => .ok _
  unfold Operation.repetition
  rw [h.length_eq]
  refine (agree_check (A := fun _ => Eq) hk hlength (OnExcept.refl _)).bind fun l _ h₁ hl => ?_
  subst hl
  refine (agree_reserve l).bind fun _ _ h₂ _ => ?_
  have hts := stable_thunk.forall₂ (J.le_trans h₁ h₂) h
  refine (agree_check (A := fun w => List.Forall₂ (J.thunk w)) hk hitems
    (forall₂_repeatItems hts n)).bind fun _ _ _ hr => ?_
  exact J.newList hr

theorem concatenation_agree {ts us ts' us' : List Thunk} (ht : List.Forall₂ (J.thunk w) ts ts')
    (hu : List.Forall₂ (J.thunk w) us us') :
    J.Agree w k J.value (fun _ => Operation.concatenation ts us)
      fun _ => Operation.concatenation ts' us' := by
  unfold Operation.concatenation
  rw [ht.length_eq, hu.length_eq]
  refine (agree_reserve _).bind fun _ _ hle _ => J.newList ?_
  exact List.rel_append (stable_thunk.forall₂ hle ht) (stable_thunk.forall₂ hle hu)

theorem apply_agree {force force' : J.Index → Thunk → Eval Value} {d d' : J.Index → Nat}
    (hk : J.works k) (hd : J.Reach d d') (hf : J.Forces k force force') {a a' b b' : Value}
    (op : BinaryOp) (ha : J.value w a a') (hb : J.value w b b') :
    J.Agree w k J.value (fun i => op.apply (force i) (d i) a b)
      fun i => op.apply (force' i) (d' i) a' b' := by
  have hm : J.Agree w k J.value _ _ := mismatch_agree hk op ha hb
  cases J.form ha <;> cases J.form hb <;> unfold BinaryOp.apply
  case number.number => exact numbers_agree hk op _ _
  case bool.bool => exact bools_agree hk op _ _
  case number.char => exact numberChar_agree hk op _ _
  case char.number => exact charNumber_agree hk op _ _
  case char.char => exact chars_agree hk op _ _
  case list.list hx _ _ _ _ hy =>
    cases op
    case add => exact concatenation_agree hx hy
    case eq =>
      have hitems := items_agree stable_value hf.value
        (fun _ _ _ _ _ ha hb => equal_agree hd hf ha hb) hx hy
      refine hitems.bind fun r r' _ hr => ?_
      subst hr
      exact .pure (J.value_bool r)
    all_goals exact hm
  case number.list hx =>
    cases op
    case mul => exact repetition_agree hk hx _
    all_goals exact hm
  case list.number hx _ =>
    cases op
    case mul => exact repetition_agree hk hx _
    all_goals exact hm
  all_goals exact hm

end Judgement

end LazyExpr
