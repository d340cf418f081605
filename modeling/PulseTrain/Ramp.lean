import PulseTrain.Timing

/-!
# Ramp delays

On a ramp from rest at constant acceleration the loop with index `n` lasts
`c * (sqrt (n + 1) - sqrt n)` clock cycles.  The difference of the roots
cancels to zero once `n` passes `2 ^ 24` in single precision, so it is computed
as `c / (sqrt (n + 1) + sqrt n)`.
-/

namespace PulseTrain

/-- The series is far off on its first term; this factor pulls it back. -/
def firstLoopCorrection : Float32 := 0.67605

def rampScale (clock : Frequency) (acceleration : Float32) : Float32 :=
  let loops := loopsPerStep.toFloat32
  clock.hertz * (loops * 2 / acceleration).sqrt / loops

/-- Clock cycles of the loop with the given index.  The acceleration is counted in
steps per squared time unit.  One that is too small for single precision is zero,
and then the scale and all delays are infinite. -/
def rampDelay (clock : Frequency) (acceleration : Float32) (index : UInt32) : Float32 :=
  let scale := rampScale clock acceleration
  let first := if index = 0 then scale * firstLoopCorrection else scale
  let n := index.toFloat32
  first / ((n + 1).sqrt + n.sqrt)

end PulseTrain
