/-
LazyExpr/Proofs/Backtrace.lean

The backtrace that a fault is reported with.

Whoever leaves a call with a fault attaches the active calls, unless that was done deeper
in the calls already.  So the backtrace of a fault shows the calls that were active at its
origin, and it is there exactly if a call was entered on the trail, or refused with calls
active.  The calls at the origin are those that were active at the start, and on top of
them one for each call on the trail that was entered.

A call that is one too many is refused where it is made, with as many calls active as the
limit allows; no node on the way out changes cause or backtrace of its fault.
-/
import LazyExpr.Proofs.Trail

namespace LazyExpr

/-! ### Active calls -/

namespace CallStack

variable {s t u : CallStack} {f : Frame} {cause : Cause}

theorem toList_of_push (h : s.push f = .ok t) :
    t.frames.toList = s.frames.toList ++ [f] := by
  unfold push at h
  split at h
  · cases h
  · cases h
    simp

theorem not_isEmpty_of_push (h : s.push f = .ok t) : t.isEmpty = false := by
  rw [isEmpty, ← Array.isEmpty_toList, toList_of_push h]
  simp

theorem push_eq_error (h : s.push f = .error cause) :
    cause = .recursionLimit s.limit ∧ s.limit ≤ s.depth := by
  unfold push at h
  split at h
  · next hle =>
    cases h
    exact ⟨rfl, hle⟩
  · cases h

/-- The calls of one stack are the outermost ones of another, under the same limit. -/
structure Below (s t : CallStack) : Prop where
  frames : s.frames.toList <+: t.frames.toList
  limit : t.limit = s.limit

theorem Below.refl (s : CallStack) : s.Below s := ⟨List.prefix_rfl, rfl⟩

theorem Below.trans (h : s.Below t) (h' : t.Below u) : s.Below u :=
  ⟨h.frames.trans h'.frames, h'.limit.trans h.limit⟩

theorem below_of_push (h : s.push f = .ok t) : s.Below t :=
  ⟨⟨[f], (toList_of_push h).symm⟩, (depth_of_push h).2.2⟩

theorem Below.eq_of_toList (h : s.Below t) (hframes : s.frames.toList = t.frames.toList) :
    t = s := by
  obtain ⟨frames, limit⟩ := s
  obtain ⟨frames', limit'⟩ := t
  obtain rfl : limit' = limit := h.limit
  obtain rfl : frames = frames' := Array.toList_inj.1 hframes
  rfl

theorem Below.depth_le (h : s.Below t) : s.depth ≤ t.depth := h.frames.length_le

theorem length_capture (s : CallStack) (names : Names) : (s.capture names).length = s.depth := by
  simp [capture, Backtrace.length, depth]

theorem backtrace_attach (s : CallStack) (names : Names) (f : Fault) :
    (s.attach names f).backtrace =
      if s.isEmpty then f.backtrace else f.backtrace.or (some (s.capture names)) := by
  unfold attach
  cases hs : s.isEmpty with
  | true => simp
  | false =>
    cases hf : f.backtrace with
    | none => simp [Fault.withBacktrace, hf]
    | some b => simp [hf]

end CallStack

theorem Fault.backtrace_placedAt (f : Fault) (s : Span) :
    (f.placedAt s).backtrace = f.backtrace := by
  unfold placedAt withSpan
  split
  · rfl
  · rfl

/-! ### Backtraces on the way -/

variable {p : Program} {τ : Types} {a b origin : Attempt} {t : List Attempt}

/-- The inner attempt is made with the calls that are active in the outer one, or inside of
the call that the outer node stands for. -/
def Attempt.Calls (a b : Attempt) : Prop :=
  b.start.calls = a.start.calls ∨
    ∃ f, a.node.Calls f ∧ a.start.calls.push f = .ok b.start.calls

/-- A fault that arises has no backtrace, unless a call was refused and calls were active. -/
theorem Attempt.Raises.backtrace_cases (h : a.Raises p τ) :
    (a.fault.backtrace = none ∧ ∀ d, a.fault.cause ≠ .recursionLimit d) ∨
      a.fault.cause = .recursionLimit a.start.calls.limit ∧
        a.start.calls.limit ≤ a.start.calls.depth ∧
        a.fault.backtrace =
          if a.start.calls.isEmpty then none else some (a.start.calls.capture p.names) := by
  cases h with
  | own cause harises hf =>
    refine .inl ⟨?_, fun d hd => ?_⟩
    · rw [hf, Fault.backtrace_placedAt]
      rfl
    · rw [hf, Fault.cause_placedAt] at hd
      cases hd
      exact harises
  | refused f cause _ hpush hf =>
    obtain ⟨rfl, hle⟩ := CallStack.push_eq_error hpush
    refine .inr ⟨?_, hle, ?_⟩
    · rw [hf, Fault.cause_placedAt, CallStack.cause_attach]
      rfl
    · rw [hf, Fault.backtrace_placedAt, CallStack.backtrace_attach, Fault.ofCause, Option.none_or]

/-- A fault that is passed on gets a backtrace where it leaves a call. -/
theorem Attempt.Passes.backtrace_cases (h : a.Passes p b) :
    (b.start.calls = a.start.calls ∧ a.fault.backtrace = b.fault.backtrace) ∨
      ∃ f, a.node.Calls f ∧ a.start.calls.push f = .ok b.start.calls ∧
        a.fault.backtrace = b.fault.backtrace.or (some (b.start.calls.capture p.names)) := by
  cases h with
  | outside hcalls hf => exact .inl ⟨hcalls, by rw [hf, Fault.backtrace_placedAt]⟩
  | inside f hnode hpush hf =>
    refine .inr ⟨f, hnode, hpush, ?_⟩
    rw [hf, Fault.backtrace_placedAt, CallStack.backtrace_attach,
      CallStack.not_isEmpty_of_push hpush]
    rfl

theorem Attempt.Passes.below (h : a.Passes p b) : a.start.calls.Below b.start.calls := by
  rcases h.backtrace_cases with ⟨hcalls, -⟩ | ⟨f, -, hpush, -⟩
  · rw [hcalls]
    exact .refl _
  · exact CallStack.below_of_push hpush

namespace Account

theorem isChain (h : Account p τ origin t) : t.IsChain Attempt.Calls := by
  induction h with
  | raised _ => exact .singleton _
  | passed hpasses _ ih =>
    refine List.isChain_cons_cons.2 ⟨?_, ih⟩
    rcases hpasses.backtrace_cases with ⟨hcalls, -⟩ | ⟨f, hnode, hpush, -⟩
    · exact .inl hcalls
    · exact .inr ⟨f, hnode, hpush⟩

theorem calls_below (h : Account p τ origin t) :
    ∀ x ∈ t, x.start.calls.Below origin.start.calls := by
  induction h with
  | raised _ => simpa using CallStack.Below.refl _
  | passed hpasses _ ih =>
    exact List.forall_mem_cons.2 ⟨hpasses.below.trans (ih _ List.mem_cons_self), ih⟩

/-- Calls within the limit stay within the limit. -/
theorem depth_le_limit (h : Account p τ origin (a :: t))
    (ha : a.start.calls.depth ≤ a.start.calls.limit) :
    origin.start.calls.depth ≤ origin.start.calls.limit := by
  generalize ht : a :: t = trail at h
  induction h generalizing a t with
  | raised _ =>
    cases ht
    exact ha
  | passed hpasses _ ih =>
    cases ht
    refine ih ?_ rfl
    rcases hpasses.backtrace_cases with ⟨hcalls, -⟩ | ⟨f, -, hpush, -⟩
    · rwa [hcalls]
    · obtain ⟨hlt, hdepth, hlimit⟩ := CallStack.depth_of_push hpush
      rw [hdepth, hlimit]
      exact hlt

/-- Without a backtrace, no call was entered. -/
theorem calls_of_backtrace_eq_none (h : Account p τ origin (a :: t))
    (hb : a.fault.backtrace = none) : ∀ x ∈ a :: t, x.start.calls = a.start.calls := by
  generalize ht : a :: t = trail at h
  induction h generalizing a t with
  | raised _ =>
    cases ht
    simp
  | passed hpasses _ ih =>
    cases ht
    refine List.forall_mem_cons.2 ⟨rfl, ?_⟩
    rcases hpasses.backtrace_cases with ⟨hcalls, hbacktrace⟩ | ⟨f, -, -, hbacktrace⟩
    · rw [← hcalls]
      exact ih (hbacktrace.symm.trans hb) rfl
    · rw [hb] at hbacktrace
      simp at hbacktrace

/-- A backtrace shows the calls at the origin.  If these are the calls at the start, a call
was refused. -/
theorem backtrace_eq_capture (h : Account p τ origin (a :: t)) {b : Backtrace}
    (hb : a.fault.backtrace = some b) :
    b = origin.start.calls.capture p.names ∧
      (origin.start.calls = a.start.calls → origin.fault.cause =
        .recursionLimit origin.start.calls.limit ∧
        origin.start.calls.limit ≤ origin.start.calls.depth) := by
  generalize ht : a :: t = trail at h
  induction h generalizing a t with
  | raised hraises =>
    cases ht
    rcases hraises.backtrace_cases with ⟨hnone, -⟩ | ⟨hcause, hle, hbacktrace⟩
    · rw [hnone] at hb
      cases hb
    · rw [hbacktrace] at hb
      split at hb
      · cases hb
      · cases hb
        exact ⟨rfl, fun _ => ⟨hcause, hle⟩⟩
  | @passed a b' t hpasses hrest ih =>
    cases ht
    rcases hpasses.backtrace_cases with ⟨hcalls, hbacktrace⟩ | ⟨f, -, hpush, hbacktrace⟩
    · rw [← hcalls]
      exact ih (hbacktrace.symm.trans hb) rfl
    · -- the origin is inside of the call
      have hne : origin.start.calls ≠ a.start.calls := by
        intro heq
        have hle := (hrest.calls_below _ List.mem_cons_self).depth_le
        rw [heq, (CallStack.depth_of_push hpush).2.1] at hle
        exact Nat.not_succ_le_self _ hle
      refine ⟨?_, fun heq => absurd heq hne⟩
      rw [hb] at hbacktrace
      cases hinner : b'.fault.backtrace with
      | none =>
        rw [hinner, Option.none_or] at hbacktrace
        have hsame := hrest.calls_of_backtrace_eq_none hinner origin
          (List.mem_of_getLast? hrest.getLast?_eq)
        rw [hsame]
        exact Option.some.inj hbacktrace
      | some d =>
        rw [hinner, Option.some_or] at hbacktrace
        cases hbacktrace
        exact (ih hinner rfl).1

/-- Once a backtrace is there, or no calls are active at the origin, nothing is attached. -/
theorem backtrace_kept (h : Account p τ origin t)
    (horigin : origin.fault.backtrace = none → origin.start.calls.isEmpty = true) :
    ∀ x ∈ t, x.fault.backtrace = origin.fault.backtrace := by
  induction h with
  | raised _ => simp
  | @passed a b t hpasses hrest ih =>
    refine List.forall_mem_cons.2 ⟨?_, ih⟩
    have hb := ih b List.mem_cons_self
    rcases hpasses.backtrace_cases with ⟨-, hbacktrace⟩ | ⟨f, -, hpush, hbacktrace⟩
    · rw [hbacktrace, hb]
    · rw [hbacktrace, hb]
      cases hnone : origin.fault.backtrace with
      | some d => rfl
      | none =>
        -- a call that was entered is active at the origin
        have hzero : origin.start.calls.depth = 0 :=
          Array.isEmpty_iff_size_eq_zero.1 (horigin hnone)
        have hle := (hrest.calls_below b List.mem_cons_self).depth_le
        rw [(CallStack.depth_of_push hpush).2.1, hzero] at hle
        exact absurd hle (Nat.not_succ_le_zero _)

/-- A call that is one too many is refused with as many calls active as the limit allows,
and cause and backtrace stay as they are. -/
theorem overflow (h : Account p τ origin (a :: t))
    (ha : a.start.calls.depth ≤ a.start.calls.limit) {d : Nat}
    (hd : a.fault.cause = .recursionLimit d) :
    d = a.start.calls.limit ∧ origin.start.calls.depth = a.start.calls.limit ∧
      ∀ x ∈ a :: t, x.fault.cause = a.fault.cause ∧
        x.fault.backtrace = if a.start.calls.limit = 0 then none
          else some (origin.start.calls.capture p.names) := by
  have hcause := h.cause_eq
  have hhead := hcause a List.mem_cons_self
  have hlimit : origin.start.calls.limit = a.start.calls.limit :=
    (h.calls_below a List.mem_cons_self).limit
  rcases h.raises.backtrace_cases with ⟨-, hne⟩ | ⟨hrefused, hle, hbacktrace⟩
  · exact absurd (hhead.symm.trans hd) (hne d)
  · have hfull : origin.start.calls.depth = a.start.calls.limit :=
      (Nat.le_antisymm (h.depth_le_limit ha) hle).trans hlimit
    have hempty : origin.start.calls.isEmpty = decide (a.start.calls.limit = 0) := by
      rw [← hfull, Bool.eq_iff_iff, decide_eq_true_iff]
      exact Array.isEmpty_iff_size_eq_zero
    have hkept := h.backtrace_kept fun hnone => by
      rw [hbacktrace] at hnone
      simpa using hnone
    refine ⟨?_, hfull, fun x hx => ⟨(hcause x hx).trans hhead.symm, ?_⟩⟩
    · cases hd.symm.trans (hhead.trans hrefused)
      exact hlimit
    · rw [hkept x hx, hbacktrace, hempty]
      simp

end Account

/-- **Backtraces show the calls at the origin**: without a backtrace no call was entered
since the start, and with one it lists the calls at the start and those entered since, the
innermost first and each by the text of its name or as a `<lambda>`; of those entered since
there is at least one, unless a call was refused at the start already.  From a start
without calls, a call that is one too many is reported with the limit and as many calls;
no node on the way out changes that. -/
theorem backtrace_shows_calls_at_origin (p : Program) (fuel reach rest : Nat) :
    (∀ n m f m', m.calls.depth ≤ m.calls.limit →
      (p.context fuel reach rest).eval n m = .error (.fault f) m' →
      ∃ a t origin, (∀ t', Trail p fuel reach rest n m t' ↔ t' = ⟨a, m, f⟩ :: t) ∧
        (⟨a, m, f⟩ :: t).getLast? = some origin ∧
        (⟨a, m, f⟩ :: t).IsChain Attempt.Calls ∧
        (f.backtrace = none → ∀ x ∈ ⟨a, m, f⟩ :: t, x.start.calls = m.calls) ∧
        ∀ b, f.backtrace = some b → ∃ entered,
          origin.start.calls.frames.toList = m.calls.frames.toList ++ entered ∧
          b.frames = (m.calls.frames.toList ++ entered).reverse.map (fun frame =>
            ⟨if frame.name = .empty then "<lambda>" else p.names.text frame.name, frame.span⟩) ∧
          m.calls.depth + entered.length ≤ m.calls.limit ∧
          (entered = [] →
            f.cause = .recursionLimit m.calls.limit ∧ m.calls.depth = m.calls.limit)) ∧
    ∀ roots m f m' limit d, m.calls = .empty limit →
      run (p.context fuel reach rest) roots m = .error (.fault f) m' →
      f.cause = .recursionLimit d →
      d = limit ∧ f.backtrace.map (·.length) = (if limit = 0 then none else some limit) ∧
        ∃ before r after w m₀ t, roots = before ++ r :: after ∧
          run (p.context fuel reach rest) before m = .ok w m₀ ∧
          (∀ t', Trail p fuel reach rest r m₀ t' ↔ t' = t) ∧
          ∀ x ∈ t, x.fault.cause = f.cause ∧ x.fault.backtrace = f.backtrace := by
  refine ⟨fun n m f m' hm h => ?_, fun roots m f m' limit d hm h hd => ?_⟩
  · obtain ⟨a, t, origin, htrail, haccount⟩ := exists_trail h
    refine ⟨a, t, origin, htrail, haccount.getLast?_eq, haccount.isChain,
      haccount.calls_of_backtrace_eq_none, fun b hb => ?_⟩
    obtain ⟨hcapture, hrefused⟩ := haccount.backtrace_eq_capture hb
    have hbelow : m.calls.Below origin.start.calls := haccount.calls_below _ List.mem_cons_self
    obtain ⟨entered, hframes⟩ := hbelow.frames
    have hdepth := haccount.depth_le_limit hm
    have hlength : origin.start.calls.depth = m.calls.depth + entered.length := by
      rw [CallStack.depth, ← Array.length_toList, ← hframes, List.length_append]
      rfl
    refine ⟨entered, hframes.symm, ?_, ?_, ?_⟩
    · rw [hcapture, hframes, CallStack.frames_capture]
    · rw [← hlength, ← hbelow.limit]
      exact hdepth
    · rintro rfl
      have hsame : origin.start.calls = m.calls :=
        hbelow.eq_of_toList (by rw [← hframes, List.append_nil])
      obtain ⟨hcause, hle⟩ := hrefused hsame
      rw [hsame] at hcause hle
      exact ⟨(haccount.cause_eq _ List.mem_cons_self).trans hcause, Nat.le_antisymm hm hle⟩
  · obtain ⟨before, r, after, w, m₀, hroots, hbefore, hr⟩ := runFrom_eq_error h
    have hcalls : m₀.calls = .empty limit :=
      (calls_of_runFrom (p.context_balanced fuel reach rest) hbefore).trans hm
    obtain ⟨a, t, origin, htrail, haccount⟩ := exists_trail hr
    have hwithin : m₀.calls.depth ≤ m₀.calls.limit := by
      rw [hcalls]
      exact Nat.zero_le limit
    obtain ⟨hlimit, hfull, hkept⟩ := haccount.overflow hwithin hd
    have hf := (hkept _ List.mem_cons_self).2
    simp only [hcalls, CallStack.empty] at hlimit hfull hf hkept
    refine ⟨hlimit, ?_, before, r, after, w, m₀, _, hroots, hbefore, htrail, fun x hx => ?_⟩
    · rw [hf]
      split
      · rfl
      · rw [Option.map_some, CallStack.length_capture, hfull]
    · exact ⟨(hkept x hx).1, (hkept x hx).2.trans hf.symm⟩

/-- With one call active and room for two more, the backtrace has three calls; in a run,
which starts with none, it has three as well. -/
theorem backtrace_of_endless_recursion :
    let p := Program.endless
    let m (active : CallStack) : Machine := ⟨.empty, .empty, .emptyBuffer, ⟨0⟩, active⟩
    let one : CallStack := ⟨#[⟨.empty, none⟩], 3⟩
    (∃ f m' b, one.depth ≤ one.limit ∧
      (p.context 9 1 9).eval ⟨3⟩ (m one) = .error (.fault f) m' ∧ f.backtrace = some b ∧
      b.frames = [⟨"f", some ⟨4, 7⟩⟩, ⟨"f", some ⟨0, 9⟩⟩, ⟨"<lambda>", none⟩] ∧
      ∃ entered, b.frames = ([⟨.empty, none⟩] ++ entered).reverse.map (fun frame : Frame =>
          ⟨if frame.name = .empty then "<lambda>" else p.names.text frame.name, frame.span⟩) ∧
        1 + entered.length ≤ 3) ∧
    ∃ f m', run (p.context 9 1 9) [⟨3⟩] (m (.empty 3)) = .error (.fault f) m' ∧
      f.cause = .recursionLimit 3 ∧ f.backtrace.map (·.length) = some 3 := by
  intro p m one
  obtain ⟨hnested, hrun⟩ := backtrace_shows_calls_at_origin p 9 1 9
  have heval :
      Eval.fault? ((p.context 9 1 9).eval ⟨3⟩ (m one)) =
        some ⟨.recursionLimit 3, "maximum recursion depth exceeded (limit: 3)", some ⟨4, 7⟩,
          some ⟨[⟨"f", some ⟨4, 7⟩⟩, ⟨"f", some ⟨0, 9⟩⟩, ⟨"<lambda>", none⟩]⟩⟩ ∧
      (Eval.fault? (run (p.context 9 1 9) [⟨3⟩] (m (.empty 3)))).map (·.cause) =
        some (.recursionLimit 3) := by decide +kernel
  constructor
  · obtain ⟨m', hf⟩ := Eval.exists_of_fault? heval.1
    obtain ⟨a, t, origin, -, -, -, -, hbacktrace⟩ := hnested ⟨3⟩ (m one) _ m' (by decide) hf
    obtain ⟨entered, -, hframes, hlimit, -⟩ := hbacktrace _ rfl
    exact ⟨_, m', _, by decide, hf, rfl, rfl, entered, hframes, hlimit⟩
  · obtain ⟨f, hfault, hcause⟩ := Option.map_eq_some_iff.1 heval.2
    obtain ⟨m', hf⟩ := Eval.exists_of_fault? hfault
    obtain ⟨-, hlength, -⟩ := hrun [⟨3⟩] (m (.empty 3)) f m' 3 3 rfl hf hcause
    exact ⟨f, m', hf, hcause, hlength⟩

end LazyExpr
