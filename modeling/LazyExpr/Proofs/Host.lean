/-
LazyExpr/Proofs/Host.lean

Hosts: what is done with a session from outside, and what is seen of it.

A host adds expressions to a session, runs nodes that it got back, has values that it
got back shown, compared and combined; all of it any number of times, in any order, and
with failures on the way.  It refers to nodes and values by when it got them, and the
replies that it sees have no reference into the session in them.  So two hosts can be
given the same requests whatever the numbering of their sessions is, and their replies
can be compared.

The session of a host stays valid, and what the host holds leads into it.
-/
import LazyExpr.Proofs.Validity

namespace LazyExpr

/-! ### Requests and replies -/

/-- What a host can ask for.  Numbers are places among the nodes or the values that it
got before. -/
inductive Request where
  | add (es : List Expr)
  | run (reach : Nat) (sink : Sink) (roots : List Nat)
  | display (reach : Nat) (value : Nat)
  | equal (reach : Nat) (left right : Nat)
  | apply (reach : Nat) (op : BinaryOp) (left right : Nat)

/-- What a host sees of an answer. -/
inductive Reply where
  /-- How many nodes were added for the host to run. -/
  | added (count : Except Decimal.Error Nat)
  /-- The kind of the value that the host got. -/
  | value (kind : Outcome String)
  | text (text : Outcome String)
  | truth (truth : Outcome Bool)
  /-- Something that the request refers to is not there. -/
  | refused

/-- A session, and the nodes and values that were got from it. -/
structure Host where
  session : Session
  nodes : List NodeId
  values : List Value

namespace Host

/-- Nothing has been asked yet. -/
def start (s : Session) : Host := ⟨s, [], []⟩

/-- Take the outcome of a run, and its value if there is one. -/
def take (h : Host) (r : Outcome Value × Session) : Reply × Host :=
  match r.1.result with
  | .ok v => (.value ⟨.ok v.typeName, r.1.output⟩, { h with session := r.2, values := h.values ++ [v] })
  | .error e => (.value ⟨.error e, r.1.output⟩, { h with session := r.2 })

/-- The reply to a request, and the host after it. -/
def answer (h : Host) : Request → Reply × Host
  | .add es =>
    match h.session.addAll es with
    | (.ok ids, s) => (.added (.ok ids.length), { h with session := s, nodes := h.nodes ++ ids })
    | (.error e, s) => (.added (.error e), { h with session := s })
  | .run reach sink roots =>
    match roots.mapM (h.nodes[·]?) with
    | some ids => h.take (h.session.run reach sink ids)
    | none => (.refused, h)
  | .display reach i =>
    match h.values[i]? with
    | some v =>
      let r := h.session.display reach v
      (.text r.1, { h with session := r.2 })
    | none => (.refused, h)
  | .equal reach i j =>
    match h.values[i]?, h.values[j]? with
    | some v, some w =>
      let r := h.session.equal reach v w
      (.truth r.1, { h with session := r.2 })
    | _, _ => (.refused, h)
  | .apply reach op i j =>
    match h.values[i]?, h.values[j]? with
    | some v, some w => h.take (h.session.apply reach op v w)
    | _, _ => (.refused, h)

/-- The replies to requests one after another, and the host after them. -/
def answerAll (h : Host) : List Request → List Reply × Host
  | [] => ([], h)
  | r :: rest =>
    let (reply, h) := h.answer r
    let (replies, h) := h.answerAll rest
    (reply :: replies, h)

theorem answerAll_cons (h : Host) (r : Request) (rs : List Request) :
    h.answerAll (r :: rs) =
      ((h.answer r).1 :: ((h.answer r).2.answerAll rs).1, ((h.answer r).2.answerAll rs).2) := rfl

end Host

/-! ### Valid hosts -/

/-- A result is as it should be, or there is a regular stop in its place. -/
def Outcome.Good {α : Type} (P : α → Prop) (o : Outcome α) : Prop :=
  match o.result with
  | .ok a => P a
  | .error e => e.Regular

/-- A host never sees that fuel ran out or that a reference led nowhere. -/
def Reply.Regular : Reply → Prop
  | .added _ => True
  | .value o => o.Good fun _ => True
  | .text o => o.Good fun _ => True
  | .truth o => o.Good fun _ => True
  | .refused => True

namespace Session

variable {s : Session}

theorem program_perform {α : Type} (s : Session) (sink : Sink) (x : Eval α) :
    (s.perform sink x).2.program = s.program := by
  rw [perform_snd]

theorem Valid.perform_good (h : s.Valid) {α : Type} {P : α → Prop} {sink : Sink} {x : Eval α}
    (hx : (validity s.program h.program s.limit).Keeps P (s.machine sink) (x (s.machine sink))) :
    (s.perform sink x).1.Good P := by
  unfold Outcome.Good
  rw [perform_result]
  generalize x (s.machine sink) = r at hx
  cases hx with
  | ok ha _ _ => exact ha
  | error he _ _ => exact he

theorem Valid.display_keeps (h : s.Valid) (reach : Nat) {v : Value}
    (hv : v.Within s.program.Has) :
    (validity s.program h.program s.limit).Keeps (fun _ => True) (s.machine .emptyBuffer)
      ((s.context reach).display v (s.machine .emptyBuffer)) :=
  Invariant.display_keeps (h.contexts reach _) hv ⟨h.store, h.types⟩

theorem Valid.equal_keeps (h : s.Valid) (reach : Nat) {v w : Value}
    (hv : v.Within s.program.Has) (hw : w.Within s.program.Has) :
    (validity s.program h.program s.limit).Keeps (fun _ => True) (s.machine .emptyBuffer)
      (v.equal (s.context reach).force (s.context reach).reach w (s.machine .emptyBuffer)) :=
  Invariant.equal_keeps (h.contexts reach _) hv hw ⟨h.store, h.types⟩

theorem Valid.apply_keeps (h : s.Valid) (reach : Nat) (op : BinaryOp) {v w : Value}
    (hv : v.Within s.program.Has) (hw : w.Within s.program.Has) :
    (validity s.program h.program s.limit).Keeps (·.Within s.program.Has) (s.machine .emptyBuffer)
      (op.apply (s.context reach).force (s.context reach).reach v w (s.machine .emptyBuffer)) :=
  Invariant.apply_keeps (h.contexts reach _) op hv hw ⟨h.store, h.types⟩

end Session

namespace Host

/-- The session is valid, and what the host holds leads into its program. -/
structure Valid (h : Host) : Prop where
  session : h.session.Valid
  nodes : ∀ n ∈ h.nodes, n.index < h.session.program.size
  values : ∀ v ∈ h.values, v.Within h.session.program.Has

variable {h : Host}

theorem valid_start {s : Session} (hs : s.Valid) : (start s).Valid where
  session := hs
  nodes _ hn := absurd hn List.not_mem_nil
  values _ hv := absurd hv List.not_mem_nil

/-- What is asked for by place is among what the host holds. -/
theorem mem_of_mapM {α : Type} {xs ys : List α} {is : List Nat}
    (h : is.mapM (xs[·]?) = some ys) : ∀ y ∈ ys, y ∈ xs := by
  induction is generalizing ys with
  | nil =>
    cases h
    exact nofun
  | cons i is ih =>
    rw [List.mapM_cons] at h
    obtain ⟨y, hy, h⟩ := Option.bind_eq_some_iff.1 h
    obtain ⟨zs, hzs, ⟨⟩⟩ := Option.bind_eq_some_iff.1 h
    exact List.forall_mem_cons.2 ⟨List.mem_of_getElem? hy, ih hzs⟩

section

variable {α : Type} {P : α → Prop} {sink : Sink}

/-- A step that keeps the references good leaves a valid host behind. -/
theorem Valid.perform (hv : h.Valid) {x : Eval α}
    (hx : (validity h.session.program hv.session.program h.session.limit).Keeps P
      (h.session.machine sink) (x (h.session.machine sink))) :
    Valid { h with session := (h.session.perform sink x).2 } where
  session := hv.session.perform hx
  nodes := by
    rw [Session.program_perform]
    exact hv.nodes
  values := by
    rw [Session.program_perform]
    exact hv.values

theorem Valid.take (hv : h.Valid) {x : Eval Value}
    (hx : (validity h.session.program hv.session.program h.session.limit).Keeps
      (·.Within h.session.program.Has) (h.session.machine sink) (x (h.session.machine sink))) :
    (h.take (h.session.perform sink x)).2.Valid ∧
      (h.take (h.session.perform sink x)).1.Regular := by
  have hnext := hv.perform hx
  have hgood := hv.session.perform_good hx
  rw [← Session.program_perform h.session sink x] at hgood
  unfold Host.take
  unfold Outcome.Good at hgood
  split
  · next v hr =>
    rw [hr] at hgood
    refine ⟨⟨hnext.session, hnext.nodes, fun w hw => ?_⟩, trivial⟩
    rcases List.mem_append.1 hw with hw | hw
    · exact hnext.values w hw
    · obtain rfl := List.mem_singleton.1 hw
      exact hgood
  · next e hr =>
    rw [hr] at hgood
    exact ⟨hnext, hgood⟩

end

/-- A host stays valid, whatever it asks for, and the answer is regular. -/
theorem Valid.answer (hv : h.Valid) (r : Request) :
    (h.answer r).2.Valid ∧ (h.answer r).1.Regular := by
  cases r with
  | add es =>
    obtain ⟨hs, hids⟩ := hv.session.addAll es
    have hgrows := (Session.extends_addAll hv.session.program es).1
    have hnodes : ∀ n ∈ h.nodes, n.index < (h.session.addAll es).2.program.size :=
      fun n hn => hgrows.lt (hv.nodes n hn)
    have hvalues : ∀ v ∈ h.values, v.Within (h.session.addAll es).2.program.Has :=
      fun v hmem r hr => hgrows.has (hv.values v hmem r hr)
    simp only [Host.answer]
    generalize h.session.addAll es = x at hs hids hnodes hvalues
    obtain ⟨e | ids, s⟩ := x
    · exact ⟨⟨hs, hnodes, hvalues⟩, trivial⟩
    · refine ⟨⟨hs, fun n hn => ?_, hvalues⟩, trivial⟩
      rcases List.mem_append.1 hn with hn | hn
      · exact hnodes n hn
      · exact hids ids rfl n hn
  | run reach sink roots =>
    simp only [Host.answer]
    split
    · next ids hids =>
      exact hv.take (hv.session.run_keeps reach sink fun n hn => hv.nodes n (mem_of_mapM hids n hn))
    · exact ⟨hv, trivial⟩
  | display reach i =>
    simp only [Host.answer]
    split
    · next v hi =>
      have hk := hv.session.display_keeps reach (hv.values v (List.mem_of_getElem? hi))
      exact ⟨hv.perform hk, hv.session.perform_good hk⟩
    · exact ⟨hv, trivial⟩
  | equal reach i j =>
    simp only [Host.answer]
    split
    · next v w hi hj =>
      have hk := hv.session.equal_keeps reach (hv.values v (List.mem_of_getElem? hi))
        (hv.values w (List.mem_of_getElem? hj))
      exact ⟨hv.perform hk, hv.session.perform_good hk⟩
    · exact ⟨hv, trivial⟩
  | apply reach op i j =>
    simp only [Host.answer]
    split
    · next v w hi hj =>
      exact hv.take (hv.session.apply_keeps reach op (hv.values v (List.mem_of_getElem? hi))
        (hv.values w (List.mem_of_getElem? hj)))
    · exact ⟨hv, trivial⟩

theorem Valid.answerAll (hv : h.Valid) (rs : List Request) : (h.answerAll rs).2.Valid := by
  induction rs generalizing h with
  | nil => exact hv
  | cons r rs ih => exact ih (hv.answer r).1

end Host

end LazyExpr
