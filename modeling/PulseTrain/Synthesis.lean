import PulseTrain.Binary.Rounding
import PulseTrain.Event
import PulseTrain.Movement
import PulseTrain.Ramp
import PulseTrain.Segment

/-!
# Synthesis of a segment

A movement that fits into one segment becomes directions, fractions and one
timing phase.  Cycle counts that do not fit their field are clamped, and every
clamping is reported.
-/

namespace PulseTrain

/-- The fraction of an axis that moves in every step of the defining axis. -/
def fractionScale : UInt64 := 0x80000000

def fraction (steps : Int32) (definingSteps : UInt32) : UInt32 :=
  ((stepMagnitude steps).toUInt64 * fractionScale / definingSteps.toUInt64).toUInt32

/-- The first cycle count that a field of 32 bits cannot hold. -/
def cycleLimit : Float32 := 4294967296

/-- The cycle count nearest to `cycles`, clamped to its field. -/
def cycleCount (cycles : Float32) : Logged UInt32 :=
  if cycleLimit ≤ cycles then do
    Logged.report (.tooSlow cycles)
    pure 0xFFFFFFFF
  else
    pure (Binary.roundNat cycles).toUInt32

/-- The lesser of two numbers, or the other one if one of them is indeterminate. -/
def lesser (x y : Float32) : Float32 := if x < y || y.isNaN then x else y

namespace Timing

/-- Clock cycles per loop at constant speed.  The speed is kept to the ceiling first,
and then the cycles are rounded. -/
def travelDelay (t : Timing) (speed : Float32) : Logged UInt32 :=
  cycleCount (t.clock.hertz / (loopsPerStep.toFloat32 * lesser speed t.ceiling.hertz))

def ramp (t : Timing) (loops : UInt16) (entrySquare acceleration : Float32) : Logged Ramp := do
  let seriesIndex ← cycleCount (loopsPerStep.toFloat32 * entrySquare / (2 * acceleration))
  let fineCycles ← cycleCount (32 * rampDelay t.clock acceleration seriesIndex)
  pure { loops, seriesIndex, fineCycles }

/-- The timing phase of a movement.  Squares of speeds are compared, since their
difference is what a ramp makes up over its distance.  The difference is not zero
on a ramp, but its quotient by the distance may be too small for single precision
and become zero. -/
def phase (t : Timing) (m : Movement) (definingSteps : UInt32) : Logged Phase :=
  let loops := (loopsPerStep * definingSteps).toUInt16
  let entrySquare := m.entrySpeed * m.entrySpeed
  let exitSquare := m.exitSpeed * m.exitSpeed
  let distance := 2 * definingSteps.toFloat32
  if entrySquare == exitSquare then
    .travel loops <$> t.travelDelay m.entrySpeed
  else if entrySquare < exitSquare then
    .accelerate <$> t.ramp loops entrySquare ((exitSquare - entrySquare) / distance)
  else
    .decelerate <$> t.ramp loops entrySquare ((entrySquare - exitSquare) / distance)

/-- The segment of a movement whose defining axis makes `definingSteps` steps,
at least one and few enough for one segment. -/
def synthesize (t : Timing) (m : Movement) (definingSteps : UInt32) : Logged Segment := do
  let phase ← t.phase m definingSteps
  Logged.report (.synthesized m.reversed)
  pure
    { reversed := m.reversed
      fractions := m.steps.map (fraction · definingSteps)
      phase
      outputs := m.outputs
      slot := .filled }

end Timing

end PulseTrain
