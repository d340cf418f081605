import PulseTrain.Playback
import PulseTrain.Queue

/-!
# The segment ring

A first-in first-out ring between one producer and one consumer.  The consumer
looks at the oldest segment, plays it and only then frees its slot, so a ring
that is empty has also finished playing.

A ring queue runs a consumer that sleeps until the producer has to wait, for
room or for the ring to run empty.  Once woken it plays until nothing is left.
-/

namespace PulseTrain

/-- A ring of slots, one of which always stays free. -/
structure Ring where
  slots : Nat
  /-- The queued segments, oldest first. -/
  contents : List Segment

namespace Ring

def ofSlots (slots : Nat) : Ring := { slots, contents := [] }

def capacity (r : Ring) : Nat := r.slots - 1

def size (r : Ring) : Nat := r.contents.length

def push? (r : Ring) (segment : Segment) : Option Ring :=
  if r.size < r.capacity then some { r with contents := r.contents ++ [segment] } else none

def head? (r : Ring) : Option Segment := r.contents.head?

def release (r : Ring) : Ring := { r with contents := r.contents.tail }

theorem push?_eq_some {r ring : Ring} {segment : Segment} (h : r.push? segment = some ring) :
    r.size < r.capacity ∧ ring = { r with contents := r.contents ++ [segment] } := by
  unfold push? at h
  split at h
  · next hroom =>
    cases h
    exact ⟨hroom, rfl⟩
  · cases h

end Ring

structure EnablePin where
  /-- The numbers of the calls that fail, counted from zero. -/
  fails : Nat → Bool := fun _ => false
  calls : Nat := 0
  /-- The levels driven so far, `true` for high. -/
  levels : Array Bool := #[]

/-- Drives the pin; a call that fails leaves its level. -/
def EnablePin.drive (level : Bool) (pin : EnablePin) : Reply × EnablePin :=
  let called := { pin with calls := pin.calls + 1 }
  if pin.fails pin.calls then (.error (.queue .enablePin), called)
  else (.ok (), { called with levels := pin.levels.push level })

/-- A segment that was played, with the steps made and the segments that were
in the ring meanwhile, itself included. -/
structure Played where
  segment : Segment
  pulses : Axes Nat
  pending : Nat

structure RingQueue where
  ring : Ring
  pin : EnablePin := {}
  line : EnableLine := {}
  /-- Whether the producer has had to wait for the consumer. -/
  awake : Bool := false
  played : Array Played := #[]

namespace RingQueue

/-- Plays the oldest segment and frees its slot, and tells whether there was
one. -/
def playNext (q : RingQueue) : Bool × RingQueue :=
  match q.ring.head? with
  | none => (false, q)
  | some segment =>
    let played := q.played.push ⟨segment, segment.pulses, q.ring.size⟩
    (true, { q with ring := q.ring.release, played })

def playTimes : Nat → RingQueue → RingQueue
  | 0, q => q
  | count + 1, q => playTimes count q.playNext.2

def playAll (q : RingQueue) : RingQueue := q.playTimes q.ring.size

/-- Wakes the consumer and waits until it has played everything. -/
def await (q : RingQueue) : RingQueue := { q with awake := true }.playAll

def enqueue (segment : Segment) (q : RingQueue) : Reply × RingQueue :=
  match q.ring.push? segment with
  | some ring => (.ok (), { q with ring })
  | none =>
    let q := q.await
    (.ok (), { q with ring := (q.ring.push? segment).getD q.ring })

def drain (q : RingQueue) : Reply × RingQueue :=
  (.ok (), if q.ring.contents.isEmpty then q else q.await)

def motorEnable (on : Bool) (q : RingQueue) : Reply × RingQueue :=
  let (reply, pin) := q.pin.drive (q.line.level on)
  (reply, { q with pin })

instance : MotionQueue RingQueue where
  enqueue := enqueue
  drain := drain
  motorEnable := motorEnable

/-- Lets a consumer that was woken finish, after which it sleeps again. -/
def settle (q : RingQueue) : RingQueue :=
  if q.awake then { q.playAll with awake := false } else q

end RingQueue

end PulseTrain
