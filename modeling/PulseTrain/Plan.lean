import PulseTrain.Division
import PulseTrain.Synthesis

/-!
# Plans

The segments that play back one movement, in order.  A movement that fits is
played as a single segment and a longer one division by division.  A plan is
drawn upon one segment at a time and the events of a segment are reported when
it is drawn.
-/

namespace PulseTrain

inductive Pending where
  | single (whole : Option Division)
  | split (rest : Divisions)

namespace Pending

def size : Pending → Nat
  | single none => 0
  | single (some _) => 1
  | split rest => rest.remaining.toNat

/-- The next piece that moves.  Divisions of a long movement always move; one
that did not would be left out and reported. -/
def next? : Pending → Logged (Option (Division × Pending))
  | single none => pure none
  | single (some whole) => pure (some (whole, single none))
  | split divisions =>
    match h : divisions.next? with
    | none => pure none
    | some (division, rest) =>
      have := Divisions.remaining_lt h
      if division.definingSteps = 0 then do
        Logged.report .idleDivision
        (split rest).next?
      else
        pure (some (division, split rest))
termination_by pending => pending.size
decreasing_by simpa [size] using this

theorem size_lt {pending rest : Pending} {division : Division}
    (h : pending.next?.value = some (division, rest)) : rest.size < pending.size := by
  fun_induction next? pending with
  | case1 => simp at h
  | case2 whole =>
    simp only [Logged.value_pure, Option.some.injEq, Prod.mk.injEq] at h
    obtain ⟨-, rfl⟩ := h
    simp [size]
  | case3 => simp at h
  | case4 divisions d r hnext hlt hzero ih =>
    simp only [Logged.value_bind] at h
    exact Nat.lt_trans (ih h) hlt
  | case5 divisions d r hnext hlt hmoves =>
    simp only [Logged.value_pure, Option.some.injEq, Prod.mk.injEq] at h
    obtain ⟨-, rfl⟩ := h
    exact hlt

end Pending

structure Plan where
  timing : Timing
  pending : Pending

namespace Plan

def isSplit (p : Plan) : Bool :=
  match p.pending with
  | .single _ => false
  | .split _ => true

def next? (p : Plan) : Logged (Option (Segment × Plan)) := do
  match ← p.pending.next? with
  | none => pure none
  | some (division, pending) =>
    let segment ← p.timing.synthesize division.movement division.definingSteps
    pure (some (segment, { p with pending }))

theorem size_lt {p rest : Plan} {segment : Segment}
    (h : p.next?.value = some (segment, rest)) : rest.pending.size < p.pending.size := by
  unfold next? at h
  simp only [Logged.value_bind] at h
  split at h
  · simp at h
  · next division pending hnext =>
    simp only [Logged.value_bind, Logged.value_pure, Option.some.injEq, Prod.mk.injEq] at h
    obtain ⟨-, rfl⟩ := h
    exact Pending.size_lt hnext

/-- Segments in order, each with its events, after those in `drawn`, which come
latest first. -/
def collect (drawn : List (Logged Segment)) (p : Plan) : List (Logged Segment) :=
  match h : p.next? with
  | ⟨none, _⟩ => drawn.reverse
  | ⟨some (segment, rest), events⟩ =>
    have := size_lt (congrArg Logged.value h)
    rest.collect (⟨segment, events⟩ :: drawn)
termination_by p.pending.size

def segments (p : Plan) : List (Logged Segment) := p.collect []

theorem collect_of_next?_eq_none (drawn : List (Logged Segment)) {p : Plan}
    (h : p.next?.value = none) : p.collect drawn = drawn.reverse := by
  rw [collect]
  split <;> simp_all

theorem collect_of_next?_eq_some (drawn : List (Logged Segment)) {p rest : Plan}
    {segment : Segment} (h : p.next?.value = some (segment, rest)) :
    p.collect drawn = rest.collect (⟨segment, p.next?.events⟩ :: drawn) := by
  rw [collect]
  split <;> simp_all

theorem collect_eq_append (drawn : List (Logged Segment)) (p : Plan) :
    p.collect drawn = drawn.reverse ++ p.segments := by
  match h : p.next?.value with
  | none => simp [segments, collect_of_next?_eq_none _ h]
  | some (segment, rest) =>
    have := size_lt h
    rw [segments, collect_of_next?_eq_some _ h, collect_of_next?_eq_some _ h,
      collect_eq_append (⟨segment, p.next?.events⟩ :: drawn) rest,
      collect_eq_append [⟨segment, p.next?.events⟩] rest]
    simp
termination_by p.pending.size

theorem segments_of_next?_eq_none {p : Plan} (h : p.next?.value = none) : p.segments = [] :=
  collect_of_next?_eq_none [] h

theorem segments_of_next?_eq_some {p rest : Plan} {segment : Segment}
    (h : p.next?.value = some (segment, rest)) :
    p.segments = ⟨segment, p.next?.events⟩ :: rest.segments := by
  rw [segments, collect_of_next?_eq_some _ h, collect_eq_append]
  rfl

end Plan

/-- The plan of a movement.  Steps are checked first and then the speeds. -/
def Timing.plan (t : Timing) (m : Movement) : Logged (Except Fault Plan) := do
  let definingSteps := m.definingSteps
  if definingSteps = 0 then
    Logged.report .zeroLength
    pure (.error (.motion .zeroLength))
  else match m.checkSpeeds with
    | .error fault => pure (.error fault)
    | .ok () =>
      if definingSteps ≤ stepsPerSegment then
        pure (.ok ⟨t, .single (some ⟨m, definingSteps⟩)⟩)
      else
        let divisions := Divisions.ofMovement m definingSteps
        Logged.report (.splitting definingSteps divisions.remaining)
        pure (.ok ⟨t, .split divisions⟩)

end PulseTrain
