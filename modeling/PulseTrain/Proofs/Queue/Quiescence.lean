import PulseTrain.Proofs.Plan.Capacity
import PulseTrain.Proofs.Queue.Schedules

/-!
# Changes wait for quiet

The enable line is driven and the ceiling changes only while nothing is queued
and the consumer is not at work.  The look at the ring comes before the change,
and the consumer may act in between, but it finds nothing: the slot of a segment
is freed only after the segment has been played, and no one else fills the ring.

A plan keeps the timing under which it was made, and the producer is done with a
plan before the ceiling can change.  So whatever is queued or being played was
synthesized under the timing in force.
-/

namespace PulseTrain

theorem EnablePin.calls_drive (pin : EnablePin) (level : Bool) :
    (pin.drive level).2.calls = pin.calls + 1 := by
  unfold drive
  split <;> rfl

/-- An attempt to drive the pin can be told even if it fails. -/
theorem EnablePin.drive_ne (pin : EnablePin) (level : Bool) : (pin.drive level).2 ≠ pin := by
  intro hsame
  have hcalls := pin.calls_drive level
  rw [hsame] at hcalls
  omega

theorem Plan.timing_of_next? {p rest : Plan} {segment : Segment}
    (hnext : p.next?.value = some (segment, rest)) : rest.timing = p.timing := by
  unfold next? at hnext
  simp only [Logged.value_bind] at hnext
  split at hnext
  next => simp at hnext
  next division pending hpending =>
    simp only [Logged.value_bind, Logged.value_pure, Option.some.injEq,
      Prod.mk.injEq] at hnext
    obtain ⟨-, rfl⟩ := hnext
    rfl

namespace Producer

def plan? : Producer → Option Plan
  | feeding plan => some plan
  | pushing _ rest => some rest
  | _ => none

def IsChanging : Producer → Prop
  | switching _ | limiting _ => True
  | _ => False

end Producer

namespace Call

theorem timing_of_begin {t : Timing} {call : Call} {plan : Plan}
    (hplan : (call.begin t).plan? = some plan) : plan.timing = t := by
  cases call with
  | enqueue m =>
      cases hmade : (t.plan m).value with
      | error fault => simp [begin, hmade, Producer.plan?] at hplan
      | ok made =>
          simp only [begin, hmade, Producer.plan?, Option.some.injEq] at hplan
          subst plan
          exact (Timing.plan_eq_ok hmade).2.2.1
  | motorEnable on => simp [begin, Producer.plan?] at hplan
  | drain => simp [begin, Producer.plan?] at hplan
  | setCeiling ceiling => simp [begin, Producer.plan?] at hplan

theorem not_isChanging_begin (t : Timing) (call : Call) : ¬ (call.begin t).IsChanging := by
  cases call with
  | enqueue m =>
      cases hplan : (t.plan m).value <;> simp [begin, hplan, Producer.IsChanging]
  | motorEnable on => exact id
  | drain => exact id
  | setCeiling ceiling => exact id

theorem plan?_proceed (call : Call) : call.proceed.plan? = none := by
  cases call <;> rfl

end Call

namespace Machine

def Quiet (s : Machine) : Prop := s.ring.contents = [] ∧ s.consumer = .idle

def queued (s : Machine) : List Handed := s.handed.drop s.released.length

/-- The segment belongs to a request and was synthesized under the timing in
force. -/
def Planned (s : Machine) (segment : Segment) : Prop :=
  ∃ m : Movement, Call.enqueue m ∈ s.calls ∧ segment ∈ s.timing.segmentsOf m

namespace Ordered

variable {t : Timing} {s : Machine}

theorem length_released_le (h : Ordered t s) : s.released.length ≤ s.handed.length := by
  have hlength := congrArg List.length h.fifo
  rw [List.length_append, List.length_map] at hlength
  omega

theorem map_queued (h : Ordered t s) : s.queued.map Handed.segment = s.ring.contents := by
  unfold queued
  rw [List.map_drop, ← h.fifo, List.drop_left]

theorem quiet_of_contents_eq_nil (h : Ordered t s) (hempty : s.ring.contents = []) :
    s.Quiet := by
  refine ⟨hempty, ?_⟩
  cases hconsumer : s.consumer with
  | idle => rfl
  | playing segment | played segment =>
      have hhead := h.held segment (by rw [hconsumer]; rfl)
      simp [Ring.head?, hempty] at hhead

end Ordered

/-- Everything underway was synthesized under the timing in force, and a change
finds nothing underway. -/
structure Current (s : Machine) : Prop where
  plan : ∀ plan, s.producer.plan? = some plan → plan.timing = s.timing
  unsent : ∀ segment ∈ s.producer.unsent, s.Planned segment
  queued : ∀ handed ∈ s.queued, handed.timing = s.timing ∧ s.Planned handed.segment
  quiet : s.producer.IsChanging → s.Quiet

theorem current_start (slots : ℕ) (pin : EnablePin) (line : EnableLine) (t : Timing) :
    (start slots pin line t).Current := by
  constructor
  · intro plan hplan
    cases hplan
  · intro segment hmem
    cases hmem
  · intro handed hmem
    cases hmem
  · exact False.elim

theorem Planned.of_call {s : Machine} {segment : Segment} (h : s.Planned segment)
    (producer : Producer) (call : Call) :
    Planned { s with producer, calls := s.calls ++ [call] } segment := by
  obtain ⟨m, hcall, hmem⟩ := h
  exact ⟨m, List.mem_append_left _ hcall, hmem⟩

section Preservation

variable {t : Timing} {s s' : Machine} (hstep : Step s s')

include hstep

theorem Step.timing_of_plan? (h : s.Current) :
    ∀ plan, s'.producer.plan? = some plan → plan.timing = s'.timing := by
  have hplan := h.plan
  cases hstep with
  | call call hproducer => exact fun plan hbegin => Call.timing_of_begin hbegin
  | draw hproducer hnext =>
      intro plan hrest
      cases hrest
      rw [Plan.timing_of_next? hnext]
      exact hplan _ (by rw [hproducer]; rfl)
  | push hproducer hpush =>
      rw [hproducer] at hplan
      exact hplan
  | proceed hproducer hsize =>
      intro plan hproceed
      rw [Call.plan?_proceed] at hproceed
      cases hproceed
  | finish | switch | limit =>
      intro plan hready
      cases hready
  | _ => exact hplan

theorem Step.planned_of_unsent (h : s.Current) :
    ∀ segment ∈ s'.producer.unsent, s'.Planned segment := by
  have hunsent := h.unsent
  cases hstep with
  | call call hproducer =>
      intro segment hmem
      rw [Call.unsent_begin] at hmem
      cases call with
      | enqueue m => exact ⟨m, by simp, hmem⟩
      | motorEnable on => cases hmem
      | drain => cases hmem
      | setCeiling ceiling => cases hmem
  | draw hproducer hnext =>
      rw [hproducer, Producer.unsent, Plan.segments_of_next?_eq_some hnext] at hunsent
      exact hunsent
  | push hproducer hpush =>
      rw [hproducer, Producer.unsent] at hunsent
      exact fun segment hmem => hunsent segment (List.mem_cons_of_mem _ hmem)
  | proceed hproducer hsize =>
      intro segment hmem
      rw [Call.unsent_proceed] at hmem
      cases hmem
  | finish | switch | limit =>
      intro segment hmem
      cases hmem
  | _ => exact hunsent

theorem Step.quiet_of_isChanging (hordered : Ordered t s) (h : s.Current) :
    s'.producer.IsChanging → s'.Quiet := by
  have hquiet := h.quiet
  cases hstep with
  | call call hproducer =>
      intro hchanging
      exact absurd hchanging (Call.not_isChanging_begin _ _)
  | proceed hproducer hsize =>
      intro hchanging
      exact hordered.quiet_of_contents_eq_nil (List.length_eq_zero_iff.mp hsize)
  | draw | finish | push | switch | limit => exact False.elim
  | peek hconsumer hhead =>
      intro hchanging
      simp [Ring.head?, (hquiet hchanging).1] at hhead
  | play hconsumer | release hconsumer =>
      intro hchanging
      rw [(hquiet hchanging).2] at hconsumer
      cases hconsumer
  | _ => exact hquiet

theorem Step.current_of_queued (hordered : Ordered t s) (h : s.Current) :
    ∀ handed ∈ s'.queued, handed.timing = s'.timing ∧ s'.Planned handed.segment := by
  have hqueued := h.queued
  cases hstep with
  | call call hproducer =>
      intro handed hmem
      obtain ⟨htiming, hplanned⟩ := hqueued handed hmem
      exact ⟨htiming, hplanned.of_call _ _⟩
  | push hproducer hpush =>
      intro handed hmem
      simp only [Machine.queued] at hmem
      rw [List.drop_append_of_le_length hordered.length_released_le, List.mem_append,
        List.mem_singleton] at hmem
      rcases hmem with hbefore | rfl
      · exact hqueued handed hbefore
      · refine ⟨h.plan _ (by rw [hproducer]; rfl), h.unsent _ ?_⟩
        rw [hproducer]
        exact List.mem_cons_self
  | limit hproducer =>
      -- No segment is left that could have been synthesized under the old ceiling.
      have hquiet := h.quiet (by rw [hproducer]; trivial)
      have hnone := hordered.map_queued
      rw [hquiet.1, List.map_eq_nil_iff] at hnone
      intro handed hmem
      simp only [Machine.queued] at hmem hnone
      rw [hnone] at hmem
      cases hmem
  | release hconsumer =>
      intro handed hmem
      apply hqueued
      simp only [Machine.queued, List.length_append, List.length_singleton] at hmem ⊢
      rw [← List.drop_drop] at hmem
      exact List.mem_of_mem_drop hmem
  | _ => exact hqueued

theorem Step.current (hordered : Ordered t s) (h : s.Current) : s'.Current :=
  ⟨hstep.timing_of_plan? h, hstep.planned_of_unsent h, hstep.current_of_queued hordered h,
    hstep.quiet_of_isChanging hordered h⟩

end Preservation

theorem Reaches.current {slots : ℕ} {pin : EnablePin} {line : EnableLine} {t : Timing}
    {s : Machine} (hreach : (start slots pin line t).Reaches s) : s.Current := by
  induction hreach with
  | refl => exact current_start slots pin line t
  | tail hbefore hstep ih => exact hstep.current (Reaches.ordered hbefore) ih

theorem Step.isChanging {s s' : Machine} (hstep : Step s s')
    (hchange : s'.pin ≠ s.pin ∨ s'.timing ≠ s.timing) :
    s.producer.IsChanging ∧ s'.ring = s.ring ∧ s'.consumer = s.consumer := by
  cases hstep with
  | switch hproducer => exact ⟨by rw [hproducer]; trivial, rfl, rfl⟩
  | limit hproducer => exact ⟨by rw [hproducer]; trivial, rfl, rfl⟩
  | _ => simp at hchange

/-- The enable line is driven and the ceiling changes only while nothing is
queued or being played, so that whatever is queued or being played was
synthesized for a request under the timing in force. -/
theorem quiet_at_changes {slots : ℕ} {pin : EnablePin} {line : EnableLine} {t : Timing}
    {s : Machine} (hreach : (start slots pin line t).Reaches s) :
    (∀ s', Step s s' → s'.pin ≠ s.pin ∨ s'.timing ≠ s.timing → s.Quiet ∧ s'.Quiet) ∧
      s.queued.map Handed.segment = s.ring.contents ∧
      (∀ segment, s.consumer.held? = some segment →
        s.queued.head?.map Handed.segment = some segment) ∧
      ∀ handed ∈ s.queued, handed.timing = s.timing ∧
        ∃ m : Movement, Call.enqueue m ∈ s.calls ∧
          handed.segment ∈ s.timing.segmentsOf m := by
  have hordered := hreach.ordered
  have hcurrent := hreach.current
  refine ⟨?_, hordered.map_queued, ?_, hcurrent.queued⟩
  · intro s' hstep hchange
    obtain ⟨hchanging, hring, hconsumer⟩ := hstep.isChanging hchange
    have hquiet := hcurrent.quiet hchanging
    refine ⟨hquiet, ?_⟩
    unfold Quiet
    rw [hring, hconsumer]
    exact hquiet
  · intro segment hheld
    rw [← List.head?_map, hordered.map_queued]
    exact hordered.held segment hheld

/-- A movement is queued, the drivers are to be switched off, and the pin fails. -/
theorem quiet_at_changes_with_failing_pin :
    ∃ s s₁ s₂ : Machine,
      (start 2 { fails := fun _ => true } {} {}).Reaches s ∧
        s.ring.contents ≠ [] ∧ (∀ handed ∈ s.queued, handed.timing = s.timing) ∧
        s.Reaches s₁ ∧ s₁.Step s₂ ∧ s₂.pin ≠ s₁.pin ∧
        s₁.Quiet ∧ s₂.Quiet := by
  obtain ⟨handed, hqueued⟩ := reaches_perform
    (c := ⟨{ ring := .ofSlots 2, pin := { fails := fun _ => true } }, {}⟩) (by decide) [] []
    (.enqueue (.ofSteps [10] 1 1 0))
  rw [Controller.perform_enqueue rfl,
    Plan.segments_of_plan (t := {}) (m := .ofSteps [10] 1 1 0) rfl] at hqueued
  generalize hq : RingQueue.enqueueAll _ _ = q at hqueued
  have hcall := Step.call (s := ofController ⟨q, {}⟩ .ready [.enqueue (.ofSteps [10] 1 1 0)]
    handed) (.motorEnable false) rfl
  have hwait : Reaches _ _ := hcall.reaches.trans (reaches_proceed (.motorEnable false))
  have hswitch := Step.switch (s := ofController ⟨q.drain.2, {}⟩ (.switching false)
    [.enqueue (.ofSteps [10] 1 1 0), .motorEnable false] handed) rfl
  refine ⟨_, _, _, hqueued, ?_, ?_, hwait, hswitch, EnablePin.drive_ne _ _, ?_⟩
  · have hcontents : q.ring.contents ≠ [] := by
      rw [← hq]
      exact List.cons_ne_nil _ _
    exact hcontents
  · intro entry hmem
    exact ((quiet_at_changes hqueued).2.2.2 entry hmem).1
  · exact (quiet_at_changes (hqueued.trans hwait)).1 _ hswitch
      (Or.inl (EnablePin.drive_ne _ _))

end Machine

end PulseTrain
