import PulseTrain.Proofs.Plan.Segments
import PulseTrain.Proofs.Queue.Schedules

/-!
# Delivery

Segments leave the ring in the order in which the plans give them, whatever the
order of steps.  The records of a machine say so in every reachable state, and
once everything has been played nothing depends on the order any more.

A machine can always come to that point.  The consumer never waits, and a ring
of two slots or more has room once the consumer has played everything, so the
producer can come to the end of its call.
-/

namespace PulseTrain

namespace Machine

/-! ## Everything can be played -/

theorem exists_idle (s : Machine) :
    ∃ s' : Machine, s.Reaches s' ∧ s'.calls = s.calls ∧ s'.consumer = .idle := by
  cases hconsumer : s.consumer with
  | idle => exact ⟨s, Relation.ReflTransGen.refl, rfl, hconsumer⟩
  | playing segment =>
      have hplay : Reaches _ _ := (Step.play hconsumer).reaches
      exact ⟨_, hplay.tail (.release rfl), rfl, rfl⟩
  | played segment => exact ⟨_, (Step.release hconsumer).reaches, rfl, rfl⟩

theorem exists_ready {c : Controller RingQueue} (hslots : 2 ≤ c.queue.ring.slots)
    (producer : Producer) (calls : List Call) (handed : List Handed) :
    ∃ (c' : Controller RingQueue) (handed' : List Handed),
      (ofController c producer calls handed).Reaches
        (ofController c' .ready calls handed') := by
  cases producer with
  | ready => exact ⟨c, handed, Relation.ReflTransGen.refl⟩
  | feeding plan =>
      obtain ⟨handed', hfeed⟩ := reaches_enqueueAll hslots plan handed
      exact ⟨_, handed', hfeed⟩
  | pushing segment rest =>
      have hpush : (ofController c (.pushing segment rest) calls handed).Reaches _ :=
        reaches_enqueue hslots segment rest
      have hkept : 2 ≤ (c.queue.enqueue segment).2.ring.slots := hslots.trans hpush.slots.ge
      obtain ⟨handed', hfeed⟩ := reaches_enqueueAll hkept rest _
      exact ⟨_, handed', hpush.trans hfeed⟩
  | draining call =>
      have hproceed : (ofController c (.draining call) calls handed).Reaches _ :=
        reaches_proceed call
      cases call with
      | enqueue m => exact ⟨_, handed, hproceed⟩
      | motorEnable on =>
          exact ⟨c.perform (.motorEnable on), handed, hproceed.tail (.switch rfl)⟩
      | drain => exact ⟨_, handed, hproceed⟩
      | setCeiling ceiling =>
          exact ⟨⟨c.queue.drain.2, c.timing.underCeiling ceiling⟩, handed,
            hproceed.tail (.limit rfl)⟩
  | switching on =>
      exact ⟨⟨(c.queue.motorEnable on).2, c.timing⟩, handed, (Step.switch rfl).reaches⟩
  | limiting ceiling =>
      exact ⟨⟨c.queue, c.timing.underCeiling ceiling⟩, handed, (Step.limit rfl).reaches⟩

/-- The current call can come to its end and everything can be played. -/
theorem exists_drained {s : Machine} (hslots : 2 ≤ s.ring.slots) :
    ∃ s' : Machine, s.Reaches s' ∧ s'.calls = s.calls ∧ s'.Drained := by
  obtain ⟨s₁, hidle, hcalls, hconsumer⟩ := s.exists_idle
  obtain ⟨c, hmachine⟩ := exists_ofController hconsumer
  have hkept : 2 ≤ c.queue.ring.slots := by
    have hsame := hidle.slots
    rw [hmachine] at hsame
    exact hslots.trans hsame.ge
  obtain ⟨c', handed, hready⟩ := exists_ready hkept s₁.producer s₁.calls s₁.handed
  rw [← hmachine] at hready
  have hdrain : (ofController c' .ready s₁.calls handed).Reaches _ := reaches_drain
  exact ⟨_, (hidle.trans hready).trans hdrain, hcalls, rfl, c'.queue.contents_drain⟩

theorem exists_drained_after_calls {k : ℕ} (hslots : 2 ≤ k) (pin : EnablePin)
    (line : EnableLine) (t : Timing) (calls : List Call) :
    ∃ s : Machine, (start k pin line t).Reaches s ∧ s.Drained ∧ s.calls = calls := by
  obtain ⟨handed, hreach⟩ := reaches_performAll
    (c := ⟨{ ring := .ofSlots k, pin, line }, t⟩) hslots [] [] calls
  obtain ⟨s, hlater, hcalls, hdrained⟩ := exists_drained (hslots.trans hreach.slots.ge)
  exact ⟨s, hreach.trans hlater, hdrained, hcalls⟩

end Machine

/-! ## The order of the segments -/

theorem Timing.length_segmentsOf {t : Timing} {m : Movement} {plan : Plan}
    (hplan : (t.plan m).value = .ok plan) : (t.segmentsOf m).length = m.pieces.length := by
  simp only [segmentsOf, hplan]
  rw [List.length_map, Plan.length_segments hplan]

namespace Machine

/-- Segments are played in the order of the plans, whatever the order of steps:
none is lost, repeated or overtaken, and a segment leaves the ring only after it
has been played. -/
theorem segments_in_order {slots : ℕ} {pin : EnablePin} {line : EnableLine} {t : Timing}
    {requests : List Movement} {s : Machine}
    (hreach : (start slots pin line t).Reaches s)
    (hcalls : s.calls <+: requests.map Call.enqueue) :
    s.released ++ s.ring.contents = s.handed.map Handed.segment ∧
      s.handed.map Handed.segment <+: requests.flatMap t.segmentsOf ∧
      (∀ segment, s.consumer.held? = some segment → s.ring.head? = some segment) ∧
      s.ring.size ≤ slots - 1 ∧
      (s.calls = requests.map Call.enqueue → s.Drained →
        s.released = requests.flatMap t.segmentsOf) ∧
      (2 ≤ slots → ∃ s' : Machine, s.Reaches s' ∧ s'.calls = s.calls ∧ s'.Drained) := by
  have h := hreach.ordered
  have hslots : s.ring.slots = slots := hreach.slots
  obtain ⟨later, hlater⟩ := hcalls
  refine ⟨h.fifo, ?_, h.held, ?_, ?_, ?_⟩
  · have hplanned := t.plannedAll_append s.calls later
    rw [hlater, Timing.plannedAll_enqueue, ← h.planned, List.append_assoc] at hplanned
    exact ⟨_, hplanned.symm⟩
  · have hsize := h.size
    rwa [Ring.capacity, hslots] at hsize
  · rintro hall ⟨hready, hempty⟩
    have hfifo := h.fifo
    have hplanned := h.planned
    rw [hempty, List.append_nil] at hfifo
    rw [hready, hall, Timing.plannedAll_enqueue, ← hfifo] at hplanned
    simpa [Producer.unsent] using hplanned
  · intro hroom
    exact exists_drained (hroom.trans hslots.ge)

/-- A movement of four segments passes through a ring that holds only two, after a
request that was turned away. -/
theorem segments_in_order_through_small_ring :
    ∃ s : Machine,
      (start 3 {} {} {}).Reaches s ∧ s.Drained ∧
        s.calls = [Movement.ofSteps [] 0 0 0, .ofSteps [100000, -77777, 3] 0 100 7].map
          Call.enqueue ∧
        s.released = Timing.segmentsOf {} (.ofSteps [100000, -77777, 3] 0 100 7) ∧
        s.released.length = 4 := by
  obtain ⟨s, hreach, hdrained, hcalls⟩ := exists_drained_after_calls (k := 3) (by decide) {} {} {}
    ([Movement.ofSteps [] 0 0 0, .ofSteps [100000, -77777, 3] 0 100 7].map Call.enqueue)
  have hplayed := (segments_in_order hreach (by rw [hcalls])).2.2.2.2.1 hcalls hdrained
  have hrefused : Timing.segmentsOf {} (.ofSteps [] 0 0 0) = [] := rfl
  rw [List.flatMap_cons, List.flatMap_singleton, hrefused, List.nil_append] at hplayed
  have hlength : (Timing.segmentsOf {} (.ofSteps [100000, -77777, 3] 0 100 7)).length =
      (Movement.ofSteps [100000, -77777, 3] 0 100 7).pieces.length :=
    Timing.length_segmentsOf rfl
  rw [Movement.length_pieces] at hlength
  exact ⟨s, hreach, hdrained, hcalls, hplayed, by rw [hplayed, hlength]; decide⟩

end Machine

/-- What a controller has played and what is still in its ring are the segments
of its calls, in order. -/
theorem Controller.played_append_contents {slots : ℕ} (hslots : 2 ≤ slots) (pin : EnablePin)
    (line : EnableLine) (t : Timing) (calls : List Call) (c : Controller RingQueue)
    (hc : c = calls.foldl Controller.perform ⟨{ ring := .ofSlots slots, pin, line }, t⟩) :
    c.queue.played.toList.map Played.segment ++ c.queue.ring.contents =
      t.plannedAll calls := by
  subst hc
  obtain ⟨handed, hreach⟩ := Machine.reaches_performAll
    (c := ⟨{ ring := .ofSlots slots, pin, line }, t⟩) hslots [] [] calls
  have hordered : Machine.Ordered t _ := Machine.Reaches.ordered hreach
  have hplanned := hordered.planned
  rw [← hordered.fifo] at hplanned
  exact (List.append_nil _).symm.trans hplanned

end PulseTrain
