/-
LazyExpr/Proofs/Payload.lean

What a fault says is true.

The cause of a fault is the one that its origin raised, for no node on the way out changes
it.  So what holds of the causes of single nodes (`Cause.Arises`) holds of the fault that a
run ends with; the types that were declared when it arose are those that are declared when
the run ends.  The limit on active calls is never changed, so a call that is one too many
is reported with the limit of the session.

The missing fields of a constructor are not supplied, and those that are too many are.  Two
fields that were issued have different texts, so in a valid session no text is reported as
both.
-/
import LazyExpr.Proofs.Backtrace
import LazyExpr.Proofs.Construction
import LazyExpr.Proofs.Interning

namespace LazyExpr

/-! ### Fields of constructors -/

theorem Variant.mem_of_mem_unexpectedAfter {v : Variant} {seen supplied : List Name} {f : Name}
    (h : f ∈ v.unexpectedAfter seen supplied) : f ∈ supplied := by
  induction supplied generalizing seen with
  | nil => cases h
  | cons g rest ih =>
    rw [unexpectedAfter_cons, List.mem_append] at h
    rcases h with h | h
    · split at h
      · rw [List.mem_singleton.1 h]
        exact List.mem_cons_self
      · cases h
    · exact List.mem_cons_of_mem g (ih h)

namespace Types.Mismatch

variable {p : Program} {τ : Types} {missing unexpected : List Name}

theorem disjoint (h : τ.Mismatch p missing unexpected) : ∀ n ∈ missing, n ∉ unexpected := by
  obtain ⟨-, a, -, type, variant, fields, v, -, -, rfl, rfl⟩ := h
  intro n hn hmem
  rw [Variant.missing_eq, List.mem_filter, decide_eq_true_iff] at hn
  exact hn.2 (Variant.mem_of_mem_unexpectedAfter hmem)

/-- All fields that are reported were issued. -/
theorem has (h : τ.Mismatch p missing unexpected) (hp : p.WellFormed) (hτ : τ.Supported p) :
    (∀ n ∈ missing, p.Has (.name n)) ∧ ∀ n ∈ unexpected, p.Has (.name n) := by
  obtain ⟨-, a, ha, type, variant, fields, v, hkind, hv, rfl, rfl⟩ := h
  constructor
  · intro n hn
    have hfield : n ∈ v.fields := List.mem_of_mem_filter hn
    exact hτ.variant hv _ (List.mem_cons_of_mem _ (List.mem_map_of_mem hfield))
  · intro n hn
    obtain ⟨f, hf, rfl⟩ := List.mem_map.1 (Variant.mem_of_mem_unexpectedAfter hn)
    obtain ⟨i, hi⟩ := Array.getElem?_of_mem ha
    refine hp.refs (n := ⟨i⟩) hi _ ?_
    rw [hkind, Kind.refs]
    refine List.mem_cons_of_mem _ (List.mem_cons_of_mem _ (List.mem_flatMap.2 ⟨f, hf, ?_⟩))
    exact List.mem_cons_self

theorem texts_disjoint (h : τ.Mismatch p missing unexpected) (hp : p.WellFormed)
    (hτ : τ.Supported p) :
    ∀ text ∈ missing.map p.names.text, text ∉ unexpected.map p.names.text := by
  obtain ⟨hmissing, hunexpected⟩ := h.has hp hτ
  intro text htext hmem
  obtain ⟨n, hn, rfl⟩ := List.mem_map.1 htext
  obtain ⟨n', hn', heq⟩ := List.mem_map.1 hmem
  have hissued : p.names.text? n' = some (p.names.text n) := by
    rw [← heq]
    exact Names.text?_of_lt (hunexpected n' hn')
  rw [Names.eq_of_text? hissued (Names.text?_of_lt (hmissing n hn))] at hn'
  exact h.disjoint n hn hn'

end Types.Mismatch

/-! ### Runs -/

/-- What is true of the cause that a run ends with, where so many calls may be active. -/
def Cause.Truthful (p : Program) (τ : Types) (limit : Nat) : Cause → Prop
  | recursionLimit n => n = limit
  | cause => cause.Arises p τ

theorem Cause.Arises.truthful {p : Program} {τ : Types} {cause : Cause} (h : cause.Arises p τ)
    (limit : Nat) : cause.Truthful p τ limit := by
  cases cause with
  | recursionLimit n => exact h.elim
  | _ => exact h

section

variable {p : Program} {fuel reach rest : Nat} {roots : List NodeId} {m m' : Machine} {f : Fault}

/-- The fault of a run has the wording of its cause. -/
theorem message_of_run (h : run (p.context fuel reach rest) roots m = .error (.fault f) m') :
    f.message = f.cause.message := by
  obtain ⟨before, r, after, w, m₀, -, -, hr⟩ := runFrom_eq_error h
  obtain ⟨a, t, origin, -, haccount⟩ := exists_trail hr
  exact haccount.message_eq _ List.mem_cons_self

/-- The cause of a run's fault arose at a node, or is the refusal of a call. -/
theorem cause_of_run (h : run (p.context fuel reach rest) roots m = .error (.fault f) m') :
    f.cause.Truthful p m'.types m.calls.limit := by
  obtain ⟨before, r, after, w, m₀, -, hbefore, hr⟩ := runFrom_eq_error h
  have hcalls := calls_of_runFrom (p.context_balanced fuel reach rest) hbefore
  obtain ⟨a, t, origin, -, haccount⟩ := exists_trail hr
  have hcause : f.cause = origin.fault.cause := haccount.cause_eq _ List.mem_cons_self
  have hlimit : origin.start.calls.limit = m.calls.limit := by
    rw [← hcalls]
    exact (haccount.calls_below _ List.mem_cons_self).limit
  rw [hcause]
  cases haccount.raises with
  | own cause harises hf =>
    rw [hf, Fault.cause_placedAt]
    exact harises.truthful _
  | refused frame cause _ hpush hf =>
    obtain ⟨rfl, -⟩ := CallStack.push_eq_error hpush
    rw [hf, Fault.cause_placedAt, CallStack.cause_attach]
    exact hlimit

end

theorem Session.exists_of_result {s : Session} {reach : Nat} {sink : Sink} {roots : List NodeId}
    {e : Stop} (h : (s.run reach sink roots).1.result = .error e) :
    ∃ m', LazyExpr.run (s.context reach) roots (s.machine sink) = .error e m' := by
  unfold Session.run at h
  rw [perform_result] at h
  cases hrun : LazyExpr.run (s.context reach) roots (s.machine sink) with
  | ok v m' =>
    rw [hrun] at h
    cases h
  | error e' m' =>
    rw [hrun] at h
    cases h
    exact ⟨m', rfl⟩

/-- The types that are declared when a run fails mention nothing that was not issued. -/
theorem Session.Valid.types_of_run {s : Session} (hs : s.Valid) {reach : Nat} {sink : Sink}
    {roots : List NodeId} (hr : ∀ r ∈ roots, r.index < s.program.size) {e : Stop} {m' : Machine}
    (h : LazyExpr.run (s.context reach) roots (s.machine sink) = .error e m') :
    m'.types.Supported s.program := by
  have htypes := (hs.run reach sink hr).types
  unfold Session.run at htypes
  rw [perform_snd, Eval.after_of_error h] at htypes
  exact htypes

/-- **Faults are truthful**: if the primitive functions have their one argument, a run that
ends with a fault shows the text of its cause, which is not an ill formed program or a cause
without details; an index that is reported is
outside of the list, two kinds or numbers that are reported to differ do, fields of a
constructor that are reported are missing or too many and never both, and the limit that is
reported is that of the session. -/
theorem fault_of_run_truthful {s : Session} (hp : s.program.UnaryIntrinsics) {reach : Nat}
    {sink : Sink} {roots : List NodeId} {f : Fault}
    (h : (s.run reach sink roots).1.result = .error (.fault f)) :
    f.message = f.cause.message ∧
    (∀ text, f.cause ≠ .illFormed text ∧ f.cause ≠ .other text) ∧
    (∀ index length, f.cause = .indexOutOfBounds index length → index < 0 ∨ length ≤ index) ∧
    (∀ name expected got, f.cause = .arityMismatch name expected got → expected ≠ got) ∧
    (∀ expected got, f.cause = .typeMismatch expected got → expected ≠ got) ∧
    (∀ type variant missing unexpected,
      f.cause = .constructorMismatch type variant missing unexpected →
      (missing ≠ [] ∨ unexpected ≠ []) ∧
      (s.Valid → (∀ r ∈ roots, r.index < s.program.size) →
        ∀ name ∈ missing, name ∉ unexpected)) ∧
    ∀ limit, f.cause = .recursionLimit limit → limit = s.limit := by
  obtain ⟨m', hrun⟩ := Session.exists_of_result h
  have hcause : f.cause.Truthful s.program m'.types s.limit := cause_of_run hrun
  refine ⟨message_of_run hrun, fun text => ⟨fun hf => ?_, fun hf => ?_⟩, fun index length hf => ?_,
    fun name expected got hf => ?_, fun expected got hf => ?_,
    fun type variant missing unexpected hf => ?_, fun limit hf => ?_⟩ <;> rw [hf] at hcause
  · exact hcause hp
  · exact hcause
  · exact hcause
  · exact hcause
  · exact hcause
  · obtain ⟨ms, us, hmismatch, rfl, rfl⟩ := hcause
    refine ⟨?_, fun hs hr => hmismatch.texts_disjoint hs.program (hs.types_of_run hr hrun)⟩
    simpa using hmismatch.1
  · exact hcause

/-- A field that is missing beside one that is not declared and one that is supplied twice. -/
def misbuilt : List Expr :=
  [.declare "T" [("V", ["a", "b"])],
    .construct "T" "V" [("b", .integer 1), ("c", .integer 2), ("b", .integer 3)]]

theorem fault_of_misbuilt :
    let s := ((Session.withPrelude 2).addAll misbuilt).2
    let roots : List NodeId := [⟨12⟩, ⟨16⟩]
    ((Session.withPrelude 2).addAll misbuilt).1 = .ok roots ∧ s.program.UnaryIntrinsics ∧
      s.Valid ∧ (∀ r ∈ roots, r.index < s.program.size) ∧
      ∃ f, (s.run 1 .emptyBuffer roots).1.result = .error (.fault f) ∧
        f.cause = .constructorMismatch "T" "V" ["a"] ["c", "b"] ∧
        f.message = "constructor T.V field mismatch; missing: a; unexpected: c, b" ∧
        f.message = f.cause.message ∧
        ∀ name ∈ ["a"], name ∉ ["c", "b"] := by
  intro s roots
  let f : Fault := ⟨.constructorMismatch "T" "V" ["a"] ["c", "b"],
    "constructor T.V field mismatch; missing: a; unexpected: c, b", none, none⟩
  obtain ⟨hadded, hunary, hroots, hfault⟩ :
      ((Session.withPrelude 2).addAll misbuilt).1 = .ok roots ∧ s.program.UnaryIntrinsics ∧
        (∀ r ∈ roots, r.index < s.program.size) ∧
        Eval.fault? (run (s.context 1) roots (s.machine .emptyBuffer)) = some f := by
    decide +kernel
  have hs : s.Valid := ((Session.valid_withPrelude 2).addAll misbuilt).1
  obtain ⟨m', hrun⟩ := Eval.exists_of_fault? hfault
  have hresult : (s.run 1 .emptyBuffer roots).1.result = .error (.fault f) := by
    rw [Session.run_eq, hrun]
    rfl
  obtain ⟨hmessage, -, -, -, -, hfields, -⟩ := fault_of_run_truthful hunary hresult
  exact ⟨hadded, hunary, hs, hroots, f, hresult, rfl, rfl, hmessage,
    (hfields _ _ _ _ rfl).2 hs hroots⟩

end LazyExpr
