import PulseTrain.Axes
import PulseTrain.Fault

/-!
# Movements

A request to move all axes along a straight line: a signed step count for every
axis and the speeds of the fastest axis at both ends.  The axis with the most
steps defines the movement, and the other axes follow it in proportion.
-/

namespace PulseTrain

inductive Direction where
  | forward
  | reverse
  deriving DecidableEq, Repr

namespace Direction

/-- An axis at rest counts as moving forward. -/
def ofSteps (steps : Int32) : Direction := if steps < 0 then reverse else forward

def sign : Direction → Int
  | forward => 1
  | reverse => -1

end Direction

/-- The number of steps without their sign; it always fits. -/
def stepMagnitude (steps : Int32) : UInt32 := steps.toInt.natAbs.toUInt32

def largestMagnitude (steps : Axes Int32) : UInt32 :=
  steps.foldl (fun largest s => max largest (stepMagnitude s)) 0

structure Movement where
  steps : Axes Int32
  /-- The speed of the defining axis at the start. -/
  entrySpeed : Float32
  exitSpeed : Float32
  /-- Auxiliary output bits that are set along with the movement. -/
  outputs : UInt16

namespace Movement

/-- A movement of the first axes; the others rest. -/
def ofSteps (steps : List Int32) (entrySpeed exitSpeed : Float32) (outputs : UInt16) : Movement :=
  { steps := Axes.ofList 0 steps, entrySpeed, exitSpeed, outputs }

/-- Steps of the axis that moves furthest, zero when none moves. -/
def definingSteps (m : Movement) : UInt32 := largestMagnitude m.steps

def direction (m : Movement) (axis : Axis) : Direction := .ofSteps (m.steps.get axis)

def reversed (m : Movement) : AxisMask := .ofAxes (m.steps.map (decide <| · < 0))

/-- Whether a speed is finite and not negative. -/
def speedIsValid (speed : Float32) : Bool := speed.isFinite && !decide (speed < 0)

/-- Checks the entry speed first and then the exit speed. -/
def checkSpeeds (m : Movement) : Except Fault Unit :=
  match [m.entrySpeed, m.exitSpeed].find? (!speedIsValid ·) with
  | some speed => .error (.motion (.speed speed))
  | none => .ok ()

end Movement

end PulseTrain
