import PulseTrain.Fault
import PulseTrain.Segment

/-!
# Motion queues

The way from a planner to whatever plays segments back: a bounded channel that
keeps the order of the segments, and the switch of the motor drivers.  A call
on a full queue waits and does not fail; any call may fail for reasons of its
own, and the queue that it leaves behind is the one to go on with.
-/

namespace PulseTrain

abbrev Reply := Except Fault Unit

class MotionQueue (Q : Type) where
  /-- Hands over a segment, waiting while there is no room. -/
  enqueue : Segment → Q → Reply × Q
  /-- Waits until every segment handed over has been played. -/
  drain : Q → Reply × Q
  motorEnable : Bool → Q → Reply × Q

structure EnableLine where
  /-- Whether a low level enables the drivers. -/
  activeLow : Bool := true
  deriving DecidableEq, Repr

namespace EnableLine

/-- The level that switches the drivers on or off, `true` for high. -/
def level (line : EnableLine) (on : Bool) : Bool := on != line.activeLow

end EnableLine

end PulseTrain
