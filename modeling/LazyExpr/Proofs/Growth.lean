/-
LazyExpr/Proofs/Growth.lean

A program that grows runs as before.

When expressions are added to a session, nodes, decimals and names join its program
at the end.  What was there stays in its place, and everything that the store, the
declared types and the active calls refer to was there.  So a run of nodes that were
there does the same in the program that has grown: it never meets a new node, and
every name that it shows has the text that it had.

The simulation relates equal machines.  Its two sides differ in the program alone:
in the texts of names, which are the same for the names that the smaller program
has, and in the fuel, of which the larger one has more.
-/
import LazyExpr.Proofs.Validity

namespace LazyExpr

/-! ### Texts -/

section

variable {p q : Program}

/-- The names of the active calls are names of the program. -/
def CallStack.Named (p : Program) (cs : CallStack) : Prop :=
  ∀ f ∈ cs.frames, p.Has (.name f.name)

theorem CallStack.Named.push {cs d : CallStack} {f : Frame} (h : cs.Named p)
    (hf : p.Has (.name f.name)) (hd : cs.push f = .ok d) : d.Named p := by
  rw [CallStack.push] at hd
  split at hd
  · cases hd
  · cases hd
    intro g hg
    rcases Array.mem_push.1 hg with hg | rfl
    · exact h g hg
    · exact hf

/-- A backtrace shows the same texts. -/
theorem CallStack.Named.attach_eq {cs : CallStack} (h : cs.Named p) (hq : p.Grows q) :
    cs.attach q.names = cs.attach p.names := by
  have hframe : ∀ f ∈ cs.frames.toList.reverse,
      (⟨frameName q.names f, f.span⟩ : TraceFrame) = ⟨frameName p.names f, f.span⟩ := by
    intro f hf
    have hmem : f ∈ cs.frames := Array.mem_toList_iff.1 (List.mem_reverse.1 hf)
    rw [frameName, frameName, hq.text (h f hmem)]
  have hcapture : cs.capture q.names = cs.capture p.names := by
    rw [capture, capture, List.map_congr_left hframe]
  funext f
  rw [attach, attach, hcapture]

/-- The names that a defect is about. -/
def DataType.Defect.names : Defect → List Name
  | noVariants => []
  | repeatedVariant v => [v]
  | repeatedField f v => [f, v]

theorem DataType.mem_of_firstRepeated {seen ns : List Name} {n : Name}
    (h : firstRepeated seen ns = some n) : n ∈ ns := by
  induction ns generalizing seen with
  | nil => cases h
  | cons m rest ih =>
    rw [firstRepeated] at h
    split at h
    · cases h
      exact List.mem_cons_self
    · exact List.mem_cons_of_mem m (ih h)

/-- A defect is about names that the declaration mentions. -/
theorem DataType.names_of_defect {t : DataType} {d : Defect} (h : t.defect? = some d) :
    ∀ n ∈ d.names, Ref.name n ∈ t.refs := by
  have go : ∀ (seen : List Name) (vs : List Variant), variantsDefect? seen vs = some d →
      ∀ n ∈ d.names, Ref.name n ∈ vs.flatMap Variant.refs := by
    intro seen vs hvs n hn
    induction vs generalizing seen with
    | nil => cases hvs
    | cons v rest ih =>
      have hname : Ref.name v.name ∈ v.refs := List.mem_cons_self
      rw [List.flatMap_cons]
      rw [variantsDefect?] at hvs
      split at hvs
      · cases hvs
        obtain rfl := List.mem_singleton.1 hn
        exact List.mem_append_left _ hname
      · split at hvs
        · next f hf =>
          cases hvs
          refine List.mem_append_left _ ?_
          rcases List.mem_cons.1 hn with rfl | hn
          · have hfield := mem_of_firstRepeated hf
            exact List.mem_cons_of_mem _ (List.mem_map_of_mem hfield)
          · obtain rfl := List.mem_singleton.1 hn
            exact hname
        · exact List.mem_append_right _ (ih _ hvs)
  rw [defect?] at h
  split at h
  · cases h
    exact fun n hn => absurd hn List.not_mem_nil
  · exact fun n hn => List.mem_cons_of_mem _ (go _ _ h n hn)

theorem DataType.Defect.message_eq {ns ms : Names} {d : Defect}
    (h : ∀ n ∈ d.names, ns.text n = ms.text n) : d.message ns = d.message ms := by
  cases d with
  | noVariants => rfl
  | repeatedVariant v => rw [message, message, h v List.mem_cons_self]
  | repeatedField f v =>
    rw [message, message, h f List.mem_cons_self,
      h v (List.mem_cons_of_mem _ List.mem_cons_self)]

theorem Types.variant_eq (hq : p.Grows q) (τ : Types) {t v : Name} (ht : p.Has (.name t))
    (hv : p.Has (.name v)) : τ.variant q.names t v = τ.variant p.names t v := by
  rw [variant, variant, hq.text ht, hq.text hv]

theorem Types.declare_eq (hq : p.Grows q) (τ : Types) {t : DataType}
    (ht : ∀ r ∈ t.refs, p.Has r) : τ.declare q.names t = τ.declare p.names t := by
  have hname : q.names.text t.name = p.names.text t.name := hq.text (ht _ List.mem_cons_self)
  rw [declare, declare, hname]
  cases hd : t.defect? with
  | none => rfl
  | some d =>
    have hmessage : d.message q.names = d.message p.names :=
      DataType.Defect.message_eq fun n hn => hq.text (ht _ (DataType.names_of_defect hd n hn))
    simp only [hmessage]

end

/-! ### The simulation -/

section

variable {p q : Program} {hp : p.WellFormed} {hq : p.Grows q}

/-- Equal machines over a program and over one that has grown from it.  With less fuel
on the left, running out of it is excused there. -/
def growth (hp : p.WellFormed) (hq : p.Grows q) : Simulation p q :=
  { (support p hp).excusing (· = .outOfFuel) fun f _ h => Stop.mapFault_outOfFuel f h with
    calls := fun cs cs' => cs = cs' ∧ cs.Named p
    text_eq := by
      rintro n _ ⟨rfl, hn⟩
      exact (hq.text hn).symm
    variant := by
      rintro σ τ _ _ t _ v _ ⟨rfl, rfl, hσ⟩ ⟨rfl, ht⟩ ⟨rfl, hv⟩
      rw [Types.variant_eq hq τ ht hv]
      rcases hw : τ.variant p.names t v with c | w
      · exact .error c
      · exact .ok (Likeness.onVariant_within.2 ⟨rfl, hσ.2.variant hw⟩)
    declare := by
      rintro σ τ _ _ t t' ⟨rfl, rfl, hσ⟩ ht
      obtain ⟨rfl, hrefs⟩ := Likeness.onDataType_within.1 ht
      rw [Types.declare_eq hq τ hrefs]
      rcases hτ : τ.declare p.names t with c | τ'
      · exact .error c
      · exact .ok ⟨rfl, rfl, hσ.1, hσ.2.declare hrefs hτ⟩
    enter := by
      rintro cs _ n _ d sp ⟨rfl, hcs⟩ ⟨rfl, hn⟩ hd
      have hnamed : d.Named p := hcs.push (f := ⟨n, sp⟩) hn hd
      refine ⟨d, hd, ⟨rfl, hnamed⟩, ?_⟩
      rintro e _ ⟨rfl, -⟩
      exact ⟨by rw [hnamed.attach_eq hq], trivial⟩
    refuse := by
      rintro cs _ n _ c sp ⟨rfl, hcs⟩ ⟨rfl, -⟩ hd
      exact .inr ⟨c, hd, by rw [hcs.attach_eq hq], trivial⟩
    raise := by
      rintro cs _ c -
      exact ⟨rfl, trivial⟩
    reach := by
      rintro cs _ -
      exact ⟨rfl, trivial⟩
    capacity := by
      rintro cs _ -
      exact ⟨rfl, trivial⟩ }

theorem growth_programs : (growth hp hq).Programs :=
  .of_within (support p hp) rfl (fun hn => hq.node? hn) (fun ha => hq.number? ha)
    fun _ _ => ⟨rfl, trivial⟩

theorem eq_of_growth {k : Control} {m m' : Machine} (h : (growth hp hq).Holds k k m m') :
    m' = id m := by
  have hsink : m.sink = m'.sink := h.sink
  rw [h.eq fun hσ => ⟨hσ.1, hσ.2.1⟩, ← h.left, ← hsink]
  rfl

end

/-! ### Sessions -/

namespace Session

variable {s : Session} {q : Program}

/-- Run what was there before the program grew. -/
theorem Valid.run_grown (hs : s.Valid) (hq : s.program.Grows q) {roots : List NodeId}
    (hr : ∀ r ∈ roots, r.index < s.program.size) (reach : Nat) (sink : Sink) :
    Session.run { s with program := q } reach sink roots =
      ((s.run reach sink roots).1, { (s.run reach sink roots).2 with program := q }) := by
  have hfuel : s.fuel ≤ Session.fuel { s with program := q } := Nat.mul_le_mul_left _ hq.size
  have hc : (growth hs.program hq).Contexts (s.machine sink).control (s.machine sink).control _
      (s.context reach) (Session.context { s with program := q } reach) :=
    Simulation.context_agree growth_programs (.inr ⟨hfuel, rfl⟩) (.inl rfl) (.inr ⟨hfuel, rfl⟩)
      ⟨rfl, trivial⟩ ⟨rfl, fun _ hf => nomatch hf⟩
  have hroots : List.Forall₂ (growth hs.program hq).node roots roots :=
    List.forall₂_same.2 fun r hmem => ⟨rfl, hr r hmem⟩
  have hrun := (Simulation.run_agree hc hroots).eq_or_excused (m := s.machine sink)
    ⟨rfl, rfl, hc.calls, rfl, rfl, rfl, hs.store, hs.types⟩
    (fun hv => (Likeness.onValue_within.1 hv).1) (fun he => he.1) eq_of_growth
  rw [Eval.mapMachine_id] at hrun
  -- a valid session does not run out of fuel
  have hkeeps := hs.run_keeps reach sink hr
  rcases hrun with ⟨_, m, he, rfl⟩ | heq
  · rw [he] at hkeeps
    cases hkeeps with
    | error hregular _ _ => exact hregular.elim
  · have hclose : ∀ r : EStateM.Result Stop Machine Value, close { s with program := q } r =
        ((s.close r).1, { (s.close r).2 with program := q }) := by
      rintro (⟨v, m⟩ | ⟨e, m⟩)
      · rfl
      · rfl
    rw [run_eq, run_eq, ← hclose]
    exact congrArg (close { s with program := q }) heq

end Session

end LazyExpr
