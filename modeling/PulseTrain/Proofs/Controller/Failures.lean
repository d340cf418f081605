import PulseTrain.Proofs.Controller.Exchanges
import PulseTrain.Proofs.Plan.Refusal

/-!
# Failing calls

A controller is asked for one thing after another, and every call to its queue may
fail.  A failure ends the call in which it happens: nothing more is handed over,
nothing is switched and the timing stays as it was.  The history of a list of
calls tells for each of them what was exchanged with the queue, what was replied
and under which timing; the result is about every entry of every history.
-/

namespace PulseTrain

/-- How a call to a controller went. -/
structure Performed where
  call : Call
  before : Timing
  exchanges : List Exchange
  reply : Reply
  after : Timing

/-- The segments that reached the queue. -/
def Performed.queued (p : Performed) : List Segment := p.exchanges.filterMap Exchange.queued?

theorem Timing.validated_eq_ok_iff {t valid : Timing} :
    t.validated = .ok valid ↔ valid = t ∧ t.check = .ok () := by
  unfold validated
  cases hcheck : t.check <;> simp [Except.map, eq_comm]

theorem Timing.withCeiling_eq_ok_iff {t changed : Timing} {ceiling : Frequency} :
    t.withCeiling ceiling = .ok changed ↔
      changed = { t with ceiling } ∧ ({ t with ceiling } : Timing).check = .ok () :=
  validated_eq_ok_iff

namespace Controller

namespace Course

variable {t after : Timing} {call : Call} {exchanges : List Exchange} {reply : Reply}

theorem after_eq_of_error {fault : Fault} (h : Course t call exchanges (.error fault) after) :
    after = t := by
  cases h <;> rfl

theorem of_motorEnable {on : Bool} (h : Course t (.motorEnable on) exchanges reply after) :
    (∃ fault, exchanges = [⟨.drain, .error fault⟩] ∧ reply = .error fault) ∨
      exchanges = [⟨.drain, .ok ()⟩, ⟨.enable on, reply⟩] := by
  cases h with
  | notDrained _ _ fault => exact .inl ⟨fault, rfl, rfl⟩
  | switched => exact .inr rfl

theorem of_setCeiling {ceiling : Frequency}
    (h : Course t (.setCeiling ceiling) exchanges reply after) :
    (∃ fault, exchanges = [⟨.drain, .error fault⟩] ∧ reply = .error fault) ∨
      exchanges = [⟨.drain, .ok ()⟩] ∧
        (reply = .ok () ↔ ({ t with ceiling } : Timing).check = .ok ()) ∧
        (reply = .ok () → after = { t with ceiling }) := by
  cases h with
  | notDrained _ _ fault => exact .inl ⟨fault, rfl, rfl⟩
  | limited hlimit =>
      obtain ⟨hchanged, hcheck⟩ := Timing.withCeiling_eq_ok_iff.mp hlimit
      exact .inr ⟨rfl, iff_of_true rfl hcheck, fun _ => hchanged⟩
  | notLimited hlimit =>
      have hrefused : ¬({ t with ceiling } : Timing).check = .ok () := fun hcheck => by
        rw [Timing.withCeiling_eq_ok_iff.mpr ⟨rfl, hcheck⟩] at hlimit
        cases hlimit
      exact .inr ⟨rfl, iff_of_false nofun hrefused, nofun⟩

theorem setCeiling_of_ne (h : Course t call exchanges reply after) (hchange : after ≠ t) :
    ∃ ceiling, call = .setCeiling ceiling ∧ reply = .ok () := by
  cases h with
  | @limited ceiling => exact ⟨ceiling, rfl, rfl⟩
  | _ => exact absurd rfl hchange

theorem of_enable {on : Bool} {answer : Reply} (h : Course t call exchanges reply after)
    (hmem : ⟨.enable on, answer⟩ ∈ exchanges) :
    call = .motorEnable on ∧ exchanges = [⟨.drain, .ok ()⟩, ⟨.enable on, answer⟩] ∧
      reply = answer := by
  cases h with
  | fed hplan hfed =>
      have hsegment := hfed.calls_prefix.subset (List.mem_map_of_mem hmem)
      simp at hsegment
  | switched on' reply =>
      simp only [List.mem_cons, List.not_mem_nil, or_false, Exchange.mk.injEq,
        QueueCall.enable.injEq, reduceCtorEq, false_and, false_or] at hmem
      obtain ⟨rfl, rfl⟩ := hmem
      exact ⟨rfl, rfl, rfl⟩
  | _ => simp at hmem

theorem of_plan_error {m : Movement} {fault : Fault}
    (h : Course t (.enqueue m) exchanges reply after) (hplan : (t.plan m).value = .error fault) :
    exchanges = [] ∧ reply = .error fault := by
  cases h with
  | turnedAway hrefused =>
      rw [hplan] at hrefused
      cases hrefused
      exact ⟨rfl, rfl⟩
  | fed haccepted =>
      rw [hplan] at haccepted
      cases haccepted
  | notDrained _ hwaits => exact hwaits.elim

theorem of_plan_ok {m : Movement} {plan : Plan}
    (h : Course t (.enqueue m) exchanges reply after) (hplan : (t.plan m).value = .ok plan) :
    Fed (plan.segments.map Logged.value) exchanges reply := by
  cases h with
  | turnedAway hrefused =>
      rw [hplan] at hrefused
      cases hrefused
  | fed haccepted hfed =>
      rw [hplan] at haccepted
      cases haccepted
      exact hfed
  | notDrained _ hwaits => exact hwaits.elim

end Course

variable {Q : Type} [MotionQueue Q]

def observe (call : Call) (c : Controller Q) : Performed :=
  { call
    before := c.timing
    exchanges := (c.traced.answer call).2.queue.exchanges
    reply := (c.answer call).1
    after := (c.answer call).2.timing }

def history (c : Controller Q) : List Call → List Performed
  | [] => []
  | call :: later => c.observe call :: (c.answer call).2.history later

theorem course_observe (c : Controller Q) (call : Call) :
    Course c.timing call (c.observe call).exchanges (c.observe call).reply
      (c.observe call).after := by
  obtain ⟨reply, next, exchanges, hanswer, htraced, hcourse⟩ := c.follows call
  unfold observe
  rw [hanswer, htraced]
  exact hcourse

theorem course_of_mem_history {c : Controller Q} {calls : List Call} {p : Performed}
    (hmem : p ∈ c.history calls) : Course p.before p.call p.exchanges p.reply p.after := by
  induction calls generalizing c with
  | nil => cases hmem
  | cons call later ih =>
      rcases List.mem_cons.mp hmem with rfl | hlater
      · exact c.course_observe call
      · exact ih hlater

theorem map_call_history (c : Controller Q) (calls : List Call) :
    (c.history calls).map Performed.call = calls := by
  induction calls generalizing c with
  | nil => rfl
  | cons call later ih => exact congrArg (call :: ·) (ih (c.answer call).2)

theorem before_head_history {c : Controller Q} {calls : List Call} {p : Performed}
    (hhead : (c.history calls).head? = some p) : p.before = c.timing := by
  cases calls with
  | nil => cases hhead
  | cons call later =>
      cases hhead
      rfl

/-- Every call finds the timing that the one before it left. -/
theorem isChain_history (c : Controller Q) (calls : List Call) :
    (c.history calls).IsChain fun p next => p.after = next.before := by
  induction calls generalizing c with
  | nil => exact List.isChain_nil
  | cons call later ih =>
      rw [history, List.isChain_cons]
      exact ⟨fun next hhead => (before_head_history hhead).symm, ih (c.answer call).2⟩

end Controller

theorem Plan.map_segments_ne_nil {t : Timing} {m : Movement} {plan : Plan}
    (hplan : (t.plan m).value = .ok plan) : plan.segments.map Logged.value ≠ [] := by
  have hlength := Plan.length_segments hplan
  have hpos := m.length_pieces_pos
  intro hnil
  rw [List.map_eq_nil_iff] at hnil
  rw [hnil] at hlength
  exact absurd hlength (by simp; omega)

theorem Controller.failures_contained {Q : Type} [MotionQueue Q] (c : Controller Q)
    (calls : List Call) :
    (c.history calls).map Performed.call = calls ∧
      (∀ p, (c.history calls).head? = some p → p.before = c.timing) ∧
      ((c.history calls).IsChain fun p next => p.after = next.before) ∧
      ∀ p ∈ c.history calls,
        (∀ m, p.call = .enqueue m →
          (∀ fault, (p.before.plan m).value = .error fault ↔
            (∀ axis : Axis, m.steps.get axis = 0) ∧ fault = .motion .zeroLength ∨
              (∃ axis : Axis, m.steps.get axis ≠ 0) ∧
                (Movement.SpeedFaulty m.entrySpeed ∧ fault = .motion (.speed m.entrySpeed) ∨
                  ¬Movement.SpeedFaulty m.entrySpeed ∧ Movement.SpeedFaulty m.exitSpeed ∧
                    fault = .motion (.speed m.exitSpeed))) ∧
          (p.exchanges = [] ↔ ∃ fault, (p.before.plan m).value = .error fault) ∧
          (∀ fault, (p.before.plan m).value = .error fault → p.reply = .error fault) ∧
          ∀ plan, (p.before.plan m).value = .ok plan →
            p.exchanges.map Exchange.call <+:
              (plan.segments.map Logged.value).map QueueCall.segment ∧
            (∀ exchange ∈ p.exchanges.dropLast, exchange.reply = .ok ()) ∧
            p.exchanges.getLast?.map Exchange.reply = some p.reply ∧
            p.queued <+: plan.segments.map Logged.value ∧
            (p.queued = plan.segments.map Logged.value ↔ p.reply = .ok ())) ∧
        (∀ on answer, ⟨.enable on, answer⟩ ∈ p.exchanges →
          p.call = .motorEnable on ∧
            p.exchanges = [⟨.drain, .ok ()⟩, ⟨.enable on, answer⟩] ∧ p.reply = answer) ∧
        (∀ on, p.call = .motorEnable on →
          (∃ fault, p.exchanges = [⟨.drain, .error fault⟩] ∧ p.reply = .error fault) ∨
            p.exchanges = [⟨.drain, .ok ()⟩, ⟨.enable on, p.reply⟩]) ∧
        (∀ ceiling, p.call = .setCeiling ceiling →
          (∃ fault, p.exchanges = [⟨.drain, .error fault⟩] ∧ p.reply = .error fault) ∨
            p.exchanges = [⟨.drain, .ok ()⟩] ∧
              (p.reply = .ok () ↔ ({ p.before with ceiling } : Timing).check = .ok ()) ∧
              (p.reply = .ok () → p.after = { p.before with ceiling })) ∧
        (∀ fault, p.reply = .error fault → p.after = p.before) ∧
        (p.after ≠ p.before → ∃ ceiling, p.call = .setCeiling ceiling ∧ p.reply = .ok ()) := by
  refine ⟨c.map_call_history calls, fun p => before_head_history, c.isChain_history calls,
    fun p hmem => ?_⟩
  have hcourse := course_of_mem_history hmem
  refine ⟨fun m hcall => ?_, fun on answer => hcourse.of_enable, fun on hcall => ?_,
    fun ceiling hcall => ?_, fun fault hreply => ?_, hcourse.setCeiling_of_ne⟩
  · rw [hcall] at hcourse
    refine ⟨fun fault => ?_, ⟨fun hnone => ?_, fun hrefused => ?_⟩,
      fun fault hplan => (hcourse.of_plan_error hplan).2, fun plan hplan => ?_⟩
    · rw [Timing.plan_eq_error_iff, Movement.checkSpeeds_eq_error_iff]
    · cases hplan : (p.before.plan m).value with
      | error fault => exact ⟨fault, rfl⟩
      | ok plan =>
          have hfed := hcourse.of_plan_ok hplan
          exact absurd hnone (hfed.exchanges_ne_nil (Plan.map_segments_ne_nil hplan))
    · obtain ⟨fault, hplan⟩ := hrefused
      exact (hcourse.of_plan_error hplan).1
    · have hfed := hcourse.of_plan_ok hplan
      obtain ⟨hbefore, hlast⟩ := hfed.stops (Plan.map_segments_ne_nil hplan)
      exact ⟨hfed.calls_prefix, hbefore, hlast, hfed.queued_prefix, hfed.queued_eq_iff⟩
  · rw [hcall] at hcourse
    exact hcourse.of_motorEnable
  · rw [hcall] at hcourse
    exact hcourse.of_setCeiling
  · rw [hreply] at hcourse
    exact hcourse.after_eq_of_error

end PulseTrain
