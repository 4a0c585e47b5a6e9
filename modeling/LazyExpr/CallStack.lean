/-
LazyExpr/CallStack.lean

The calls that are active, and the limit on their number.
-/
import LazyExpr.Fault
import LazyExpr.Name

namespace LazyExpr

/-- An active call: the function's name, empty for an anonymous one, and the
span of the call. -/
structure Frame where
  name : Name
  span : Option Span
deriving DecidableEq, Inhabited, Repr

/-- The active calls, the outermost first, and how many there may be. -/
structure CallStack where
  frames : Array Frame
  limit : Nat
deriving Inhabited, Repr

namespace CallStack

/-- How many calls may be active where nothing else is asked for. -/
def defaultLimit : Nat := 10000

/-- No calls, under a limit. -/
def empty (limit : Nat) : CallStack := ⟨#[], limit⟩

def depth (s : CallStack) : Nat := s.frames.size

def isEmpty (s : CallStack) : Bool := s.frames.isEmpty

/-- Enter a call, refused when the limit is reached. -/
def push (s : CallStack) (f : Frame) : Except Cause CallStack :=
  if s.limit ≤ s.depth then .error (.recursionLimit s.limit)
  else .ok { s with frames := s.frames.push f }

/-- Leave the innermost call; `Eval.popFrame` does not when there is none. -/
def pop (s : CallStack) : CallStack := { s with frames := s.frames.pop }

/-- The name a frame has in a backtrace. -/
def frameName (names : Names) (f : Frame) : String :=
  if f.name.isEmpty then "<lambda>" else names.text f.name

/-- The active calls as a backtrace. -/
def capture (s : CallStack) (names : Names) : Backtrace :=
  ⟨s.frames.toList.reverse.map fun f => ⟨frameName names f, f.span⟩⟩

theorem frames_capture (s : CallStack) (names : Names) :
    (s.capture names).frames = s.frames.toList.reverse.map fun f =>
      ⟨if f.name = .empty then "<lambda>" else names.text f.name, f.span⟩ := by
  simp [capture, frameName, Name.isEmpty]

/-- Attach the active calls to a fault that has no backtrace yet.  Without
active calls there is nothing to attach. -/
def attach (s : CallStack) (names : Names) (f : Fault) : Fault :=
  if s.isEmpty || f.backtrace.isSome then f else f.withBacktrace (s.capture names)

@[simp] theorem cause_attach (s : CallStack) (names : Names) (f : Fault) :
    (s.attach names f).cause = f.cause := by
  unfold attach Fault.withBacktrace
  split <;> rfl

@[simp] theorem message_attach (s : CallStack) (names : Names) (f : Fault) :
    (s.attach names f).message = f.message := by
  unfold attach Fault.withBacktrace
  split <;> rfl

/-- A call that is entered was within the limit, and is one more. -/
theorem depth_of_push {s t : CallStack} {f : Frame} (h : s.push f = .ok t) :
    s.depth < s.limit ∧ t.depth = s.depth + 1 ∧ t.limit = s.limit := by
  unfold push at h
  split at h
  · cases h
  · next hlt =>
    cases h
    exact ⟨Nat.lt_of_not_le hlt, Array.size_push .., rfl⟩

/-- Leaving a call takes away what entering it added. -/
theorem pop_of_push {s t : CallStack} {f : Frame} (h : s.push f = .ok t) : t.pop = s := by
  unfold push at h
  split at h
  · cases h
  · cases h
    simp [pop]

/-- Once a call is entered there is one to leave. -/
theorem isEmpty_of_push {s t : CallStack} {f : Frame} (h : s.push f = .ok t) :
    t.isEmpty = false := by
  unfold push at h
  split at h
  · cases h
  · cases h
    simp [isEmpty]

end CallStack

end LazyExpr
