import PulseTrain.Axes

/-!
# Segments

One indivisible unit of work for the pulse generator.  A segment says in which
direction every axis moves, by how much each axis advances per loop as a
fraction of `2 ^ 31`, and how long the loops last.  Exactly one timing phase is
active: speeding up, travelling or slowing down.
-/

namespace PulseTrain

/-- The state of a slot in the ring of the pulse generator. -/
inductive SlotState where
  | empty
  | filled
  deriving DecidableEq, Repr

/-- The start of a ramp, from which the generator derives successive delays. -/
structure Ramp where
  loops : UInt16
  /-- Loops that a ramp from rest would have taken to reach the entry speed. -/
  seriesIndex : UInt32
  /-- The delay at that index, in clock cycles with five fractional bits. -/
  fineCycles : UInt32
  deriving DecidableEq, Repr

inductive Phase where
  | accelerate (ramp : Ramp)
  /-- Constant speed at a fixed number of clock cycles per loop. -/
  | travel (loops : UInt16) (delayCycles : UInt32)
  | decelerate (ramp : Ramp)
  deriving DecidableEq, Repr

namespace Phase

def loops : Phase → UInt16
  | accelerate ramp | decelerate ramp => ramp.loops
  | travel loops _ => loops

def ramp? : Phase → Option Ramp
  | accelerate ramp | decelerate ramp => some ramp
  | travel .. => none

/-- The delay per loop where it is the same for all loops. -/
def delay? : Phase → Option UInt32
  | travel _ delayCycles => some delayCycles
  | accelerate _ | decelerate _ => none

end Phase

structure Segment where
  reversed : AxisMask
  /-- The advance of every axis per loop; the defining axis has `2 ^ 31`. -/
  fractions : Axes UInt32
  phase : Phase
  outputs : UInt16
  slot : SlotState
  deriving DecidableEq

namespace Segment

def loops (s : Segment) : UInt16 := s.phase.loops

/-- Loops of acceleration, zero in any other phase. -/
def accelerationLoops (s : Segment) : UInt16 :=
  match s.phase with
  | .accelerate ramp => ramp.loops
  | _ => 0

/-- Loops of travel, zero in any other phase. -/
def travelLoops (s : Segment) : UInt16 :=
  match s.phase with
  | .travel loops _ => loops
  | _ => 0

/-- Loops of deceleration, zero in any other phase. -/
def decelerationLoops (s : Segment) : UInt16 :=
  match s.phase with
  | .decelerate ramp => ramp.loops
  | _ => 0

/-- Clock cycles per travelling loop, zero on a ramp. -/
def travelDelay (s : Segment) : UInt32 := s.phase.delay?.getD 0

/-- The series index of the ramp, zero during travel. -/
def seriesIndex (s : Segment) : UInt32 := (s.phase.ramp?.map (·.seriesIndex)).getD 0

/-- The first delay of the ramp, zero during travel. -/
def fineCycles (s : Segment) : UInt32 := (s.phase.ramp?.map (·.fineCycles)).getD 0

def isReversed (s : Segment) (axis : Axis) : Bool := s.reversed.contains axis

end Segment

end PulseTrain
