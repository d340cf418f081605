import PulseTrain.Segment

/-!
# Playback

What the pulse generator does with a segment.  In every loop each axis adds its
fraction to a 32 bit accumulator that wraps around, and the top bit of the
accumulator is the level of its step line.  A step is made where a line rises.
-/

namespace PulseTrain

structure Playback where
  segment : Segment
  accumulators : Axes UInt32
  /-- The lines that are high after the last loop. -/
  levels : AxisMask
  loop : Nat

namespace Playback

def ofSegment (segment : Segment) : Playback :=
  { segment, accumulators := Vector.replicate axisCount 0, levels := 0, loop := 0 }

def total (p : Playback) : Nat := p.segment.loops.toNat

def isComplete (p : Playback) : Bool := decide (p.total ≤ p.loop)

def remaining (p : Playback) : Nat := p.total - p.loop

/-- The share of the segment that has been played; an empty one is done. -/
def progress (p : Playback) : Float32 :=
  if p.total = 0 then 1 else Float32.ofNat p.loop / Float32.ofNat p.total

def nextAccumulators (p : Playback) : Axes UInt32 :=
  p.accumulators.zipWith (· + ·) p.segment.fractions

def highLines (accumulators : Axes UInt32) : AxisMask :=
  .ofAxes (accumulators.map fun a => decide (0x80000000 ≤ a))

/-- Runs one loop and tells whose lines rose, unless the segment is complete. -/
def advance? (p : Playback) : Option (AxisMask × Playback) :=
  if p.isComplete then none else
    let accumulators := p.nextAccumulators
    let levels := highLines accumulators
    some (levels &&& ~~~p.levels, { p with accumulators, levels, loop := p.loop + 1 })

theorem remaining_lt {p next : Playback} {rising : AxisMask}
    (h : p.advance? = some (rising, next)) : next.remaining < p.remaining := by
  unfold advance? at h
  split at h
  · cases h
  · next hnot =>
    cases h
    simp only [isComplete, decide_eq_true_eq, Nat.not_le] at hnot
    simp only [remaining, total] at hnot ⊢
    omega

def countRising (rising : AxisMask) (pulses : Axes Nat) : Axes Nat :=
  pulses.zipWith (fun count rose => if rose then count + 1 else count) rising.toAxes

def runFrom (pulses : Axes Nat) (p : Playback) : Axes Nat × Playback :=
  match h : p.advance? with
  | none => (pulses, p)
  | some (rising, next) =>
    have := remaining_lt h
    runFrom (countRising rising pulses) next
termination_by p.remaining

theorem runFrom_of_advance?_eq_none (pulses : Axes Nat) {p : Playback}
    (h : p.advance? = none) : p.runFrom pulses = (pulses, p) := by
  rw [runFrom]
  split <;> simp_all

theorem runFrom_of_advance?_eq_some (pulses : Axes Nat) {p next : Playback}
    {rising : AxisMask} (h : p.advance? = some (rising, next)) :
    p.runFrom pulses = next.runFrom (countRising rising pulses) := by
  rw [runFrom]
  split <;> simp_all

/-- Plays what is left of the segment and counts the steps of every axis. -/
def run (p : Playback) : Axes Nat × Playback := p.runFrom (Vector.replicate axisCount 0)

/-- Runs up to `count` loops and lists what each attempt gave. -/
def advanceTimes : Nat → Playback → List (Option AxisMask) × Playback
  | 0, p => ([], p)
  | count + 1, p =>
    match p.advance? with
    | none => (List.replicate (count + 1) none, p)
    | some (rising, next) =>
      let (later, last) := advanceTimes count next
      (some rising :: later, last)

def forward : Nat → Playback → Playback
  | 0, p => p
  | count + 1, p =>
    match p.advance? with
    | none => p
    | some (_, next) => forward count next

def reset (p : Playback) : Playback := ofSegment p.segment

end Playback

/-- The steps of every axis when a segment is played from its start. -/
def Segment.pulses (s : Segment) : Axes Nat := (Playback.ofSegment s).run.1

end PulseTrain
