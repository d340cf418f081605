import PulseTrain.Fault

/-!
# Timing

The clock of the pulse generator and the highest step frequency that the
hardware can produce.  A travelling axis needs two loops per step and a loop
lasts at least one clock cycle, so the ceiling may not exceed half the clock.
-/

namespace PulseTrain

/-- Loops of the pulse generator per step, one for each edge of the pulse. -/
def loopsPerStep : UInt32 := 2

structure Frequency where
  hertz : Float32

namespace Frequency

def ofKilohertz (value : Float32) : Frequency := ⟨value * 1000⟩

def ofMegahertz (value : Float32) : Frequency := ⟨value * 1000000⟩

instance : HMul Frequency Float32 Frequency := ⟨fun f factor => ⟨f.hertz * factor⟩⟩

instance : HDiv Frequency Float32 Frequency := ⟨fun f divisor => ⟨f.hertz / divisor⟩⟩

protected def min (f g : Frequency) : Frequency := if f.hertz < g.hertz then f else g

/-- The order of two frequencies; an indeterminate one has none. -/
def compare? (f g : Frequency) : Option Ordering :=
  if f.hertz < g.hertz then some .lt
  else if g.hertz < f.hertz then some .gt
  else if f.hertz == g.hertz then some .eq
  else none

/-- A frequency in use is finite and positive. -/
def isValid (f : Frequency) : Bool := f.hertz.isFinite && decide (0 < f.hertz)

end Frequency

structure Timing where
  /-- The clock in which delays are counted. -/
  clock : Frequency := ⟨200000000⟩
  /-- The highest travel speed of the hardware, in steps per second. -/
  ceiling : Frequency := ⟨1000000⟩

namespace Timing

/-- The highest ceiling that the clock can serve. -/
def highestCeiling (t : Timing) : Frequency := t.clock / loopsPerStep.toFloat32

/-- Checks the clock first and then the ceiling. -/
def check (t : Timing) : Except Fault Unit :=
  if !t.clock.isValid then
    .error (.config (.timerFrequency t.clock.hertz))
  else if !t.ceiling.isValid || decide (t.highestCeiling.hertz < t.ceiling.hertz) then
    .error (.config (.frequencyLimit t.ceiling.hertz t.highestCeiling.hertz))
  else
    .ok ()

def validated (t : Timing) : Except Fault Timing := t.check.map fun _ => t

def withCeiling (t : Timing) (ceiling : Frequency) : Except Fault Timing :=
  { t with ceiling }.validated

end Timing

end PulseTrain
