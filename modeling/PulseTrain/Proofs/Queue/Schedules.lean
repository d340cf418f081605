import Mathlib.Tactic
import PulseTrain.Proofs.Queue.Interleaving

/-!
# The schedules that a ring queue runs

A ring queue lets its consumer sleep until the producer has to wait and then
play everything.  That is one way of interleaving the two, so whatever a
controller does with a ring queue is a run of the machine.  What holds in every
reachable state of the machine holds of the controller.

The runs are put together from the least the consumer does, which is to play one
segment, and from the least the producer does, which is to hand one over.
-/

namespace PulseTrain

/-! ## What the queue does -/

namespace RingQueue

theorem ring_playNext (q : RingQueue) : q.playNext.2.ring = q.ring.release := by
  cases hhead : q.ring.head? with
  | none =>
      have hempty : q.ring.contents = [] := List.head?_eq_none_iff.mp hhead
      have hrelease : q.ring.release = q.ring := by
        unfold Ring.release
        rw [hempty, List.tail_nil, ← hempty]
      rw [hrelease]
      simp [playNext, hhead]
  | some segment => simp [playNext, hhead]

theorem slots_playTimes (count : ℕ) (q : RingQueue) :
    (q.playTimes count).ring.slots = q.ring.slots := by
  induction count generalizing q with
  | zero => rfl
  | succ count ih =>
      rw [playTimes, ih, ring_playNext]
      rfl

theorem contents_playTimes (count : ℕ) (q : RingQueue) :
    (q.playTimes count).ring.contents = q.ring.contents.drop count := by
  induction count generalizing q with
  | zero => rfl
  | succ count ih =>
      rw [playTimes, ih, ring_playNext]
      simp [Ring.release]

theorem slots_await (q : RingQueue) : q.await.ring.slots = q.ring.slots :=
  slots_playTimes _ _

theorem contents_await (q : RingQueue) : q.await.ring.contents = [] := by
  unfold await playAll
  rw [contents_playTimes]
  exact List.drop_length

theorem contents_drain (q : RingQueue) : q.drain.2.ring.contents = [] := by
  unfold drain
  cases hcontents : q.ring.contents with
  | nil => simpa using hcontents
  | cons segment later => simpa using q.contents_await

theorem push?_await {q : RingQueue} (hslots : 2 ≤ q.ring.slots) (segment : Segment) :
    q.await.ring.push? segment = some { q.await.ring with contents := [segment] } := by
  have hroom : q.await.ring.size < q.await.ring.capacity := by
    unfold Ring.size Ring.capacity
    rw [contents_await, slots_await, List.length_nil]
    omega
  unfold Ring.push?
  rw [if_pos hroom, contents_await, List.nil_append]

theorem reply_enqueue (q : RingQueue) (segment : Segment) :
    (q.enqueue segment).1 = .ok () := by
  unfold enqueue
  cases q.ring.push? segment <;> rfl

def enqueueAll (q : RingQueue) (segments : List (Logged Segment)) : RingQueue :=
  segments.foldl (fun q entry => (q.enqueue entry.value).2) q

end RingQueue

theorem Controller.feed_ringQueue (log : List Event) (segments : List (Logged Segment))
    (q : RingQueue) : (feed log segments q).1 = (.ok (), q.enqueueAll segments) := by
  induction segments generalizing log q with
  | nil => rfl
  | cons entry later ih =>
      have hreply := q.reply_enqueue entry.value
      cases hcall : q.enqueue entry.value with
      | mk reply q' =>
          obtain rfl : reply = .ok () := by simpa [hcall] using hreply
          simp only [feed, MotionQueue.enqueue, hcall]
          rw [ih]
          simp [RingQueue.enqueueAll, hcall]

/-! ## What the machine does meanwhile -/

namespace Machine

/-- The machine around a controller whose consumer is not at work. -/
def ofController (c : Controller RingQueue) (producer : Producer) (calls : List Call)
    (handed : List Handed) : Machine :=
  { ring := c.queue.ring, pin := c.queue.pin, line := c.queue.line, timing := c.timing
    producer, consumer := .idle, calls, handed
    released := c.queue.played.toList.map Played.segment }

theorem exists_ofController {s : Machine} (hconsumer : s.consumer = .idle) :
    ∃ c : Controller RingQueue, s = ofController c s.producer s.calls s.handed := by
  refine ⟨⟨{ ring := s.ring, pin := s.pin, line := s.line
             played := (s.released.map fun segment => ⟨segment, segment.pulses, 0⟩).toArray },
    s.timing⟩, ?_⟩
  have hplayed : (s.released.map fun segment =>
      (⟨segment, segment.pulses, 0⟩ : Played)).map Played.segment = s.released := by
    rw [List.map_map]
    exact List.map_id _
  unfold ofController
  rw [hplayed, ← hconsumer]

variable {q : RingQueue} {t : Timing} {producer : Producer} {calls : List Call}
  {handed : List Handed}

theorem reaches_playNext :
    (ofController ⟨q, t⟩ producer calls handed).Reaches
      (ofController ⟨q.playNext.2, t⟩ producer calls handed) := by
  cases hhead : q.ring.head? with
  | none =>
      have hsame : q.playNext.2 = q := by simp [RingQueue.playNext, hhead]
      rw [hsame]
      exact Relation.ReflTransGen.refl
  | some segment =>
      have hplayed : ofController ⟨q.playNext.2, t⟩ producer calls handed =
          { ofController ⟨q, t⟩ producer calls handed with
            ring := q.ring.release
            released := q.played.toList.map Played.segment ++ [segment] } := by
        simp [ofController, RingQueue.playNext, hhead]
      have hpeek := Step.peek (s := ofController ⟨q, t⟩ producer calls handed) rfl hhead
      rw [hplayed]
      exact (hpeek.reaches.tail (.play rfl)).tail (.release rfl)

theorem reaches_playTimes (count : ℕ) :
    (ofController ⟨q, t⟩ producer calls handed).Reaches
      (ofController ⟨q.playTimes count, t⟩ producer calls handed) := by
  induction count generalizing q with
  | zero => exact Relation.ReflTransGen.refl
  | succ count ih => exact reaches_playNext.trans ih

theorem reaches_await :
    (ofController ⟨q, t⟩ producer calls handed).Reaches
      (ofController ⟨q.await, t⟩ producer calls handed) :=
  reaches_playTimes (q := { q with awake := true }) q.ring.size

theorem reaches_drain :
    (ofController ⟨q, t⟩ producer calls handed).Reaches
      (ofController ⟨q.drain.2, t⟩ producer calls handed) := by
  unfold RingQueue.drain
  split
  next hempty => exact Relation.ReflTransGen.refl
  next hsome => exact reaches_await

theorem reaches_enqueue (hslots : 2 ≤ q.ring.slots) (segment : Segment) (rest : Plan) :
    (ofController ⟨q, t⟩ (.pushing segment rest) calls handed).Reaches
      (ofController ⟨(q.enqueue segment).2, t⟩ (.feeding rest) calls
        (handed ++ [⟨segment, rest.timing⟩])) := by
  unfold RingQueue.enqueue
  cases hpush : q.ring.push? segment with
  | some ring => exact (Step.push rfl hpush).reaches
  | none =>
      -- The consumer is woken and plays everything, after which there is room.
      have hroom := RingQueue.push?_await hslots segment
      refine Relation.ReflTransGen.tail reaches_await ?_
      simp only [hroom, Option.getD_some]
      exact .push rfl hroom

theorem reaches_enqueueAll (hslots : 2 ≤ q.ring.slots) (plan : Plan) (handed : List Handed) :
    ∃ handed' : List Handed,
      (ofController ⟨q, t⟩ (.feeding plan) calls handed).Reaches
        (ofController ⟨q.enqueueAll plan.segments, t⟩ .ready calls handed') := by
  induction hsegments : plan.segments generalizing plan q handed with
  | nil =>
      cases hnext : plan.next?.value with
      | none => exact ⟨handed, (Step.finish rfl hnext).reaches⟩
      | some drawn => simp [Plan.segments_of_next?_eq_some hnext] at hsegments
  | cons entry later ih =>
      cases hnext : plan.next?.value with
      | none => simp [Plan.segments_of_next?_eq_none hnext] at hsegments
      | some drawn =>
          obtain ⟨segment, rest⟩ := drawn
          rw [Plan.segments_of_next?_eq_some hnext, List.cons.injEq] at hsegments
          obtain ⟨rfl, hlater⟩ := hsegments
          have hdraw := Step.draw (s := ofController ⟨q, t⟩ (.feeding plan) calls handed)
            rfl hnext
          have hpush : Reaches _ _ := hdraw.reaches.trans (reaches_enqueue hslots segment rest)
          have hkept : 2 ≤ (q.enqueue segment).2.ring.slots := hslots.trans hpush.slots.ge
          obtain ⟨handed', hrest⟩ :=
            ih hkept rest (handed ++ [⟨segment, rest.timing⟩]) hlater
          exact ⟨handed', hpush.trans hrest⟩

theorem reaches_proceed (call : Call) :
    (ofController ⟨q, t⟩ (.draining call) calls handed).Reaches
      (ofController ⟨q.drain.2, t⟩ call.proceed calls handed) := by
  refine Relation.ReflTransGen.tail reaches_drain (.proceed rfl ?_)
  exact List.length_eq_zero_iff.mpr q.contents_drain

end Machine

/-! ## Whole calls -/

def Controller.perform (c : Controller RingQueue) : Call → Controller RingQueue
  | .enqueue m => (c.enqueue m).value.2
  | .motorEnable on => (c.motorEnable on).value.2
  | .drain => c.drain.2
  | .setCeiling ceiling => (c.setCeiling ceiling).2

namespace Controller

theorem perform_enqueue {c : Controller RingQueue} {m : Movement} {plan : Plan}
    (hplan : (c.timing.plan m).value = .ok plan) :
    c.perform (.enqueue m) = ⟨c.queue.enqueueAll plan.segments, c.timing⟩ := by
  have hfeed := congrArg Prod.snd (feed_ringQueue [] plan.segments c.queue)
  simp only [perform, enqueue, Logged.value_bind, hplan]
  exact congrArg (fun queue => (⟨queue, c.timing⟩ : Controller RingQueue)) hfeed

theorem perform_enqueue_of_error {c : Controller RingQueue} {m : Movement} {fault : Fault}
    (hplan : (c.timing.plan m).value = .error fault) : c.perform (.enqueue m) = c := by
  simp [perform, enqueue, hplan]

theorem perform_setCeiling (c : Controller RingQueue) (ceiling : Frequency) :
    c.perform (.setCeiling ceiling) =
      ⟨c.queue.drain.2, c.timing.underCeiling ceiling⟩ := by
  have hdrain : c.drain = (.ok (), ⟨c.queue.drain.2, c.timing⟩) := rfl
  simp only [perform, setCeiling, hdrain, Timing.underCeiling]
  cases c.timing.withCeiling ceiling <;> rfl

end Controller

namespace Machine

theorem reaches_perform {c : Controller RingQueue} (hslots : 2 ≤ c.queue.ring.slots)
    (calls : List Call) (handed : List Handed) (call : Call) :
    ∃ handed' : List Handed,
      (ofController c .ready calls handed).Reaches
        (ofController (c.perform call) .ready (calls ++ [call]) handed') := by
  have hcall := Step.call (s := ofController c .ready calls handed) call rfl
  cases call with
  | enqueue m =>
      cases hplan : (c.timing.plan m).value with
      | error fault =>
          rw [Controller.perform_enqueue_of_error hplan]
          have hbegin : (Call.enqueue m).begin c.timing = .ready := by
            simp [Call.begin, hplan]
          simp only [ofController, hbegin] at hcall
          exact ⟨handed, hcall.reaches⟩
      | ok plan =>
          rw [Controller.perform_enqueue hplan]
          have hbegin : (Call.enqueue m).begin c.timing = .feeding plan := by
            simp [Call.begin, hplan]
          simp only [ofController, hbegin] at hcall
          obtain ⟨handed', hfeed⟩ := reaches_enqueueAll hslots plan handed
          exact ⟨handed', hcall.reaches.trans hfeed⟩
  | motorEnable on =>
      have hproceed := hcall.reaches.trans (reaches_proceed (.motorEnable on))
      exact ⟨handed, hproceed.tail (.switch rfl)⟩
  | drain => exact ⟨handed, hcall.reaches.trans (reaches_proceed .drain)⟩
  | setCeiling ceiling =>
      rw [Controller.perform_setCeiling]
      have hproceed := hcall.reaches.trans (reaches_proceed (.setCeiling ceiling))
      exact ⟨handed, hproceed.tail (.limit rfl)⟩

/-- Whatever a controller is asked to do is a run of the machine. -/
theorem reaches_performAll {c : Controller RingQueue} (hslots : 2 ≤ c.queue.ring.slots)
    (done : List Call) (handed : List Handed) (calls : List Call) :
    ∃ handed' : List Handed,
      (ofController c .ready done handed).Reaches
        (ofController (calls.foldl Controller.perform c) .ready (done ++ calls) handed') := by
  induction calls generalizing c done handed with
  | nil =>
      rw [List.append_nil]
      exact ⟨handed, Relation.ReflTransGen.refl⟩
  | cons call later ih =>
      obtain ⟨between, hfirst⟩ := reaches_perform hslots done handed call
      have hkept : 2 ≤ (c.perform call).queue.ring.slots := hslots.trans hfirst.slots.ge
      obtain ⟨handed', hlater⟩ := ih hkept (done ++ [call]) between
      rw [List.append_assoc] at hlater
      exact ⟨handed', hfirst.trans hlater⟩

end Machine

end PulseTrain
