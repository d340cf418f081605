import PulseTrain.Queue

/-!
# A recording queue

A queue that plays nothing and writes down what it is asked to do.  Calls of
each kind are numbered from zero, and chosen numbers fail without a record.
-/

namespace PulseTrain

inductive QueueCall where
  | segment (segment : Segment)
  | drain
  | enable (on : Bool)

/-- The numbers of the calls that fail, for each kind of call. -/
structure Failures where
  enqueue : Nat → Bool := fun _ => false
  drain : Nat → Bool := fun _ => false
  enable : Nat → Bool := fun _ => false

structure Recorder where
  failures : Failures := {}
  enqueues : Nat := 0
  drains : Nat := 0
  enables : Nat := 0
  record : Array QueueCall := #[]

namespace Recorder

def note (fails : Bool) (call : QueueCall) (r : Recorder) : Reply × Recorder :=
  if fails then (.error (.queue .enablePin), r)
  else (.ok (), { r with record := r.record.push call })

def enqueue (segment : Segment) (r : Recorder) : Reply × Recorder :=
  { r with enqueues := r.enqueues + 1 }.note (r.failures.enqueue r.enqueues) (.segment segment)

def drain (r : Recorder) : Reply × Recorder :=
  { r with drains := r.drains + 1 }.note (r.failures.drain r.drains) .drain

def motorEnable (on : Bool) (r : Recorder) : Reply × Recorder :=
  { r with enables := r.enables + 1 }.note (r.failures.enable r.enables) (.enable on)

instance : MotionQueue Recorder where
  enqueue := enqueue
  drain := drain
  motorEnable := motorEnable

end Recorder

end PulseTrain
