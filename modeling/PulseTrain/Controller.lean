import PulseTrain.Plan
import PulseTrain.Queue

/-!
# Controllers

A controller feeds movements to a motion queue as segments.  It is the only
producer of its queue.  Switching the motors and changing the ceiling wait
until every queued segment has been played.
-/

namespace PulseTrain

structure Controller (Q : Type) where
  queue : Q
  timing : Timing

namespace Controller

variable {Q : Type} [MotionQueue Q]

/-- Hands over segments in order until a call fails.  Events of the segments
handed over, the failing one included, are put in front of `log`, latest
first. -/
def feed (log : List Event) : List (Logged Segment) → Q → (Reply × Q) × List Event
  | [], q => ((.ok (), q), log)
  | segment :: later, q =>
    let log := segment.events.reverse ++ log
    match MotionQueue.enqueue segment.value q with
    | (.ok (), q) => feed log later q
    | (.error fault, q) => ((.error fault, q), log)

def enqueue (m : Movement) (c : Controller Q) : Logged (Reply × Controller Q) := do
  match ← c.timing.plan m with
  | .error fault => pure (.error fault, c)
  | .ok plan =>
    let ((reply, queue), log) := feed [] plan.segments c.queue
    ⟨(reply, { c with queue }), log.reverse⟩

def drain (c : Controller Q) : Reply × Controller Q :=
  let (reply, queue) := MotionQueue.drain c.queue
  (reply, { c with queue })

def motorEnable (on : Bool) (c : Controller Q) : Logged (Reply × Controller Q) :=
  match c.drain with
  | (.error fault, c) => pure (.error fault, c)
  | (.ok (), c) => do
    Logged.report (.motorEnable on)
    let (reply, queue) := MotionQueue.motorEnable on c.queue
    pure (reply, { c with queue })

def setCeiling (ceiling : Frequency) (c : Controller Q) : Reply × Controller Q :=
  match c.drain with
  | (.error fault, c) => (.error fault, c)
  | (.ok (), c) =>
    match c.timing.withCeiling ceiling with
    | .error fault => (.error fault, c)
    | .ok timing => (.ok (), { c with timing })

end Controller

end PulseTrain
