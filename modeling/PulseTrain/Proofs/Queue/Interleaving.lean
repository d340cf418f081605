import Mathlib.Data.Nat.Notation
import Mathlib.Logic.Relation
import PulseTrain.Controller
import PulseTrain.Queue.Ring

/-!
# A controller and its consumer side by side

The producer and the consumer of a ring run at their own pace.  A machine
consists of the two and of what they share, and a step is the least that either
of them does at once: the producer tries a single push or looks once whether the
ring is empty, and the consumer peeks, plays or frees a slot.  The look at the
ring and the change that it permits are different steps, so the consumer may act
in between.

The calls made, the segments handed over and the segments released are recorded,
so that a state says what has happened so far.  Nothing reads these records.

The invariant `Machine.Ordered` says that the records agree with each other and
with the ring.  Every step keeps it, whatever the order of the steps.
-/

namespace PulseTrain

inductive Call where
  | enqueue (m : Movement)
  | motorEnable (on : Bool)
  | drain
  | setCeiling (ceiling : Frequency)

/-- Where the producer is: between two calls, between two segments of a plan, with
a segment in hand that has not found room, waiting for the ring to run empty, or
about to make a change after seeing it empty. -/
inductive Producer where
  | ready
  | feeding (plan : Plan)
  | pushing (segment : Segment) (rest : Plan)
  | draining (call : Call)
  | switching (on : Bool)
  | limiting (ceiling : Frequency)

/-- Segments of the current call that are not in the ring yet. -/
def Producer.unsent : Producer → List Segment
  | feeding plan => plan.segments.map Logged.value
  | pushing segment rest => segment :: rest.segments.map Logged.value
  | _ => []

/-- Where the consumer is between peeking and freeing the slot. -/
inductive Consumer where
  | idle
  | playing (segment : Segment)
  | played (segment : Segment)

def Consumer.held? : Consumer → Option Segment
  | idle => none
  | playing segment | played segment => some segment

/-- A segment in the ring, with the timing under which it was synthesized. -/
structure Handed where
  segment : Segment
  timing : Timing

/-- The timing after an attempt to change its ceiling. -/
def Timing.underCeiling (t : Timing) (ceiling : Frequency) : Timing :=
  match t.withCeiling ceiling with
  | .ok changed => changed
  | .error _ => t

def Call.begin (t : Timing) : Call → Producer
  | enqueue m =>
      match (t.plan m).value with
      | .ok plan => .feeding plan
      | .error _ => .ready
  | call => .draining call

/-- Where a call takes the producer once the ring has run empty. -/
def Call.proceed : Call → Producer
  | motorEnable on => .switching on
  | setCeiling ceiling => .limiting ceiling
  | enqueue _ | drain => .ready

structure Machine where
  ring : Ring
  pin : EnablePin
  line : EnableLine
  timing : Timing
  producer : Producer
  consumer : Consumer
  calls : List Call
  handed : List Handed
  released : List Segment

namespace Machine

def start (slots : ℕ) (pin : EnablePin) (line : EnableLine) (timing : Timing) : Machine :=
  { ring := .ofSlots slots, pin, line, timing, producer := .ready, consumer := .idle
    calls := [], handed := [], released := [] }

inductive Step : Machine → Machine → Prop where
  | call {s : Machine} (call : Call) (hproducer : s.producer = .ready) :
      Step s { s with producer := call.begin s.timing, calls := s.calls ++ [call] }
  | draw {s : Machine} {plan rest : Plan} {segment : Segment}
      (hproducer : s.producer = .feeding plan)
      (hnext : plan.next?.value = some (segment, rest)) :
      Step s { s with producer := .pushing segment rest }
  | finish {s : Machine} {plan : Plan} (hproducer : s.producer = .feeding plan)
      (hnext : plan.next?.value = none) :
      Step s { s with producer := .ready }
  | push {s : Machine} {segment : Segment} {rest : Plan} {ring : Ring}
      (hproducer : s.producer = .pushing segment rest)
      (hpush : s.ring.push? segment = some ring) :
      Step s { s with
        ring, producer := .feeding rest, handed := s.handed ++ [⟨segment, rest.timing⟩] }
  | retry {s : Machine} {segment : Segment} {rest : Plan}
      (hproducer : s.producer = .pushing segment rest)
      (hpush : s.ring.push? segment = none) : Step s s
  | wait {s : Machine} {call : Call} (hproducer : s.producer = .draining call)
      (hsize : 0 < s.ring.size) : Step s s
  | proceed {s : Machine} {call : Call} (hproducer : s.producer = .draining call)
      (hsize : s.ring.size = 0) :
      Step s { s with producer := call.proceed }
  | switch {s : Machine} {on : Bool} (hproducer : s.producer = .switching on) :
      Step s { s with producer := .ready, pin := (s.pin.drive (s.line.level on)).2 }
  | limit {s : Machine} {ceiling : Frequency} (hproducer : s.producer = .limiting ceiling) :
      Step s { s with producer := .ready, timing := s.timing.underCeiling ceiling }
  | peek {s : Machine} {segment : Segment} (hconsumer : s.consumer = .idle)
      (hhead : s.ring.head? = some segment) :
      Step s { s with consumer := .playing segment }
  | idle {s : Machine} (hconsumer : s.consumer = .idle) (hhead : s.ring.head? = none) :
      Step s s
  | play {s : Machine} {segment : Segment} (hconsumer : s.consumer = .playing segment) :
      Step s { s with consumer := .played segment }
  | release {s : Machine} {segment : Segment} (hconsumer : s.consumer = .played segment) :
      Step s { s with
        ring := s.ring.release, consumer := .idle, released := s.released ++ [segment] }

def Reaches : Machine → Machine → Prop := Relation.ReflTransGen Step

theorem Step.reaches {s s' : Machine} (hstep : Step s s') : s.Reaches s' :=
  Relation.ReflTransGen.single hstep

end Machine

/-! ## What the calls ask for -/

/-- The segments of a movement; one that is not accepted has none. -/
def Timing.segmentsOf (t : Timing) (m : Movement) : List Segment :=
  match (t.plan m).value with
  | .ok plan => plan.segments.map Logged.value
  | .error _ => []

def Timing.after (t : Timing) : Call → Timing
  | .setCeiling ceiling => t.underCeiling ceiling
  | _ => t

def Timing.planned (t : Timing) : Call → List Segment
  | .enqueue m => t.segmentsOf m
  | _ => []

def Timing.plannedAll (t : Timing) : List Call → List Segment
  | [] => []
  | call :: later => t.planned call ++ (t.after call).plannedAll later

theorem Timing.plannedAll_append (t : Timing) (calls later : List Call) :
    t.plannedAll (calls ++ later) =
      t.plannedAll calls ++ (calls.foldl Timing.after t).plannedAll later := by
  induction calls generalizing t with
  | nil => rfl
  | cons first others ih =>
      simp only [List.cons_append, plannedAll, List.foldl_cons]
      rw [ih, List.append_assoc]

theorem Timing.plannedAll_singleton (t : Timing) (call : Call) :
    t.plannedAll [call] = t.planned call := List.append_nil _

theorem Timing.plannedAll_enqueue (t : Timing) (requests : List Movement) :
    t.plannedAll (requests.map .enqueue) = requests.flatMap t.segmentsOf := by
  induction requests with
  | nil => rfl
  | cons m later ih =>
      simp only [List.map_cons, plannedAll, List.flatMap_cons, after]
      rw [ih]
      rfl

/-- The timing once the current call is over. -/
def Producer.settles (t : Timing) : Producer → Timing
  | draining call => t.after call
  | limiting ceiling => t.underCeiling ceiling
  | _ => t

namespace Call

theorem unsent_begin (t : Timing) (call : Call) :
    (call.begin t).unsent = t.planned call := by
  cases call with
  | enqueue m =>
      cases hplan : (t.plan m).value <;>
        simp [begin, Timing.planned, Timing.segmentsOf, hplan, Producer.unsent]
  | motorEnable on => rfl
  | drain => rfl
  | setCeiling ceiling => rfl

theorem settles_begin (t : Timing) (call : Call) :
    (call.begin t).settles t = t.after call := by
  cases call with
  | enqueue m =>
      cases hplan : (t.plan m).value <;>
        simp [begin, Timing.after, hplan, Producer.settles]
  | motorEnable on => rfl
  | drain => rfl
  | setCeiling ceiling => rfl

theorem unsent_proceed (call : Call) : call.proceed.unsent = [] := by
  cases call <;> rfl

theorem settles_proceed (t : Timing) (call : Call) :
    call.proceed.settles t = t.after call := by
  cases call <;> rfl

end Call

namespace Machine

theorem Step.slots {s s' : Machine} (hstep : Step s s') : s'.ring.slots = s.ring.slots := by
  cases hstep with
  | push hproducer hpush =>
      obtain ⟨-, rfl⟩ := Ring.push?_eq_some hpush
      rfl
  | _ => rfl

theorem Reaches.slots {s s' : Machine} (hreach : s.Reaches s') :
    s'.ring.slots = s.ring.slots := by
  induction hreach with
  | refl => rfl
  | tail _ hstep ih => exact hstep.slots.trans ih

/-! ## The records agree -/

/-- The producer is between two calls and everything has been played. -/
def Drained (s : Machine) : Prop := s.producer = .ready ∧ s.ring.contents = []

structure Ordered (t : Timing) (s : Machine) : Prop where
  size : s.ring.size ≤ s.ring.capacity
  fifo : s.released ++ s.ring.contents = s.handed.map Handed.segment
  held : ∀ segment, s.consumer.held? = some segment → s.ring.head? = some segment
  planned : s.handed.map Handed.segment ++ s.producer.unsent = t.plannedAll s.calls
  timing : s.producer.settles s.timing = s.calls.foldl Timing.after t

theorem ordered_start (slots : ℕ) (pin : EnablePin) (line : EnableLine) (t : Timing) :
    Ordered t (start slots pin line t) := by
  constructor
  · exact Nat.zero_le _
  · rfl
  · intro segment hheld
    cases hheld
  · rfl
  · rfl

section Preservation

variable {t : Timing} {s s' : Machine} (hstep : Step s s') (h : Ordered t s)

include hstep h

theorem Step.size_le : s'.ring.size ≤ s'.ring.capacity := by
  have hsize := h.size
  cases hstep with
  | push hproducer hpush =>
      obtain ⟨hroom, rfl⟩ := Ring.push?_eq_some hpush
      simp only [Ring.size, Ring.capacity, List.length_append, List.length_singleton]
        at hroom ⊢
      omega
  | release hconsumer =>
      simp only [Ring.size, Ring.capacity, Ring.release, List.length_tail] at hsize ⊢
      omega
  | _ => exact hsize

theorem Step.fifo :
    s'.released ++ s'.ring.contents = s'.handed.map Handed.segment := by
  have hfifo := h.fifo
  cases hstep with
  | push hproducer hpush =>
      obtain ⟨-, rfl⟩ := Ring.push?_eq_some hpush
      rw [List.map_append, ← hfifo, List.append_assoc]
      rfl
  | @release segment hconsumer =>
      have hhead : s.ring.head? = some segment := h.held segment (by rw [hconsumer]; rfl)
      obtain ⟨later, hcontents⟩ := List.head?_eq_some_iff.mp hhead
      rw [← hfifo]
      simp [Ring.release, hcontents]
  | _ => exact hfifo

theorem Step.held :
    ∀ segment, s'.consumer.held? = some segment → s'.ring.head? = some segment := by
  have hheld := h.held
  cases hstep with
  | push hproducer hpush =>
      -- The slot that the consumer holds is at the other end of the ring.
      obtain ⟨-, rfl⟩ := Ring.push?_eq_some hpush
      intro segment hsegment
      have hhead := hheld segment hsegment
      simp only [Ring.head?] at hhead ⊢
      rw [List.head?_append, hhead, Option.some_or]
  | @peek segment hconsumer hhead =>
      intro held hsegment
      obtain rfl : segment = held := Option.some.inj hsegment
      exact hhead
  | play hconsumer =>
      rw [hconsumer] at hheld
      exact hheld
  | release hconsumer =>
      intro segment hsegment
      cases hsegment
  | _ => exact hheld

theorem Step.planned :
    s'.handed.map Handed.segment ++ s'.producer.unsent = t.plannedAll s'.calls := by
  have hplanned := h.planned
  cases hstep with
  | call call hproducer =>
      have htiming := h.timing
      simp only [hproducer, Producer.unsent, List.append_nil] at hplanned
      simp only [hproducer, Producer.settles] at htiming
      rw [Call.unsent_begin, Timing.plannedAll_append, Timing.plannedAll_singleton,
        ← htiming, ← hplanned]
  | draw hproducer hnext =>
      rw [hproducer, Producer.unsent, Plan.segments_of_next?_eq_some hnext] at hplanned
      exact hplanned
  | finish hproducer hnext =>
      rw [hproducer, Producer.unsent, Plan.segments_of_next?_eq_none hnext] at hplanned
      exact hplanned
  | push hproducer hpush =>
      rw [hproducer] at hplanned
      rw [← hplanned, List.map_append, List.append_assoc]
      rfl
  | proceed hproducer hsize =>
      rw [hproducer] at hplanned
      rw [Call.unsent_proceed]
      exact hplanned
  | switch hproducer | limit hproducer =>
      rw [hproducer] at hplanned
      exact hplanned
  | _ => exact hplanned

theorem Step.settles_timing :
    s'.producer.settles s'.timing = s'.calls.foldl Timing.after t := by
  have htiming := h.timing
  cases hstep with
  | call call hproducer =>
      rw [hproducer] at htiming
      rw [Call.settles_begin, List.foldl_append, ← htiming]
      rfl
  | proceed hproducer hsize =>
      rw [hproducer] at htiming
      rw [Call.settles_proceed]
      exact htiming
  | draw hproducer _ | finish hproducer _ | push hproducer _ | switch hproducer
  | limit hproducer =>
      rw [hproducer] at htiming
      exact htiming
  | _ => exact htiming

theorem Step.ordered : Ordered t s' :=
  ⟨hstep.size_le h, hstep.fifo h, hstep.held h, hstep.planned h, hstep.settles_timing h⟩

end Preservation

theorem Reaches.ordered {slots : ℕ} {pin : EnablePin} {line : EnableLine} {t : Timing}
    {s : Machine} (hreach : (start slots pin line t).Reaches s) : Ordered t s := by
  induction hreach with
  | refl => exact ordered_start slots pin line t
  | tail _ hstep ih => exact hstep.ordered ih

end Machine

end PulseTrain
