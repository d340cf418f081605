import PulseTrain.Proofs.Plan.Segments
import PulseTrain.Proofs.Queue.Interleaving
import PulseTrain.Queue.Recorder

/-!
# What a controller asks of its queue

Any call to a queue may fail, and what a controller does next depends on the reply.
A traced queue passes every call on to another queue and keeps the exchange, so
the exchanges of a call to the controller can be read off a traced copy that is
otherwise indistinguishable.

The relation `Controller.Course` says once how a call can go: which exchanges it
makes in which order, what it replies and under which timing it leaves the
controller.  Whatever holds of all courses holds of all calls.
-/

namespace PulseTrain

/-- A call to a queue with its reply. -/
structure Exchange where
  call : QueueCall
  reply : Reply

/-- The segment that was handed over, if one was. -/
def Exchange.queued? : Exchange → Option Segment
  | ⟨.segment s, .ok ()⟩ => some s
  | _ => none

/-- A queue with the exchanges made so far, oldest first. -/
structure Traced (Q : Type) where
  queue : Q
  exchanges : List Exchange

namespace Traced

variable {Q : Type}

def note (q : Traced Q) (call : QueueCall) (answer : Reply × Q) : Reply × Traced Q :=
  (answer.1, ⟨answer.2, q.exchanges ++ [⟨call, answer.1⟩]⟩)

instance [MotionQueue Q] : MotionQueue (Traced Q) where
  enqueue segment q := q.note (.segment segment) (MotionQueue.enqueue segment q.queue)
  drain q := q.note .drain (MotionQueue.drain q.queue)
  motorEnable on q := q.note (.enable on) (MotionQueue.motorEnable on q.queue)

end Traced

/-- Segments handed over in order until one is refused, whose fault is the reply. -/
inductive Fed : List Segment → List Exchange → Reply → Prop where
  | done : Fed [] [] (.ok ())
  | accepted {segment : Segment} {later : List Segment} {exchanges : List Exchange} {reply : Reply}
      (hlater : Fed later exchanges reply) :
      Fed (segment :: later) (⟨.segment segment, .ok ()⟩ :: exchanges) reply
  | refused (segment : Segment) (later : List Segment) (fault : Fault) :
      Fed (segment :: later) [⟨.segment segment, .error fault⟩] (.error fault)

namespace Fed

variable {segments : List Segment} {exchanges : List Exchange} {reply : Reply}

theorem calls_prefix (h : Fed segments exchanges reply) :
    exchanges.map Exchange.call <+: segments.map QueueCall.segment := by
  induction h with
  | done => exact List.prefix_rfl
  | accepted _ ih => exact (List.prefix_cons_inj _).mpr ih
  | refused segment later fault =>
      exact (List.prefix_cons_inj _).mpr (List.nil_prefix)

theorem queued_prefix (h : Fed segments exchanges reply) :
    exchanges.filterMap Exchange.queued? <+: segments := by
  induction h with
  | done => exact List.prefix_rfl
  | accepted _ ih => exact (List.prefix_cons_inj _).mpr ih
  | refused segment later fault => exact List.nil_prefix

theorem queued_eq_iff (h : Fed segments exchanges reply) :
    exchanges.filterMap Exchange.queued? = segments ↔ reply = .ok () := by
  induction h with
  | done => simp
  | accepted _ ih => simpa [Exchange.queued?] using ih
  | refused segment later fault =>
      have hnone : [⟨.segment segment, .error fault⟩].filterMap Exchange.queued? = [] := rfl
      rw [hnone]
      simp

theorem exchanges_ne_nil (h : Fed segments exchanges reply) (hsome : segments ≠ []) :
    exchanges ≠ [] := by
  cases h with
  | done => exact absurd rfl hsome
  | accepted => exact List.cons_ne_nil _ _
  | refused => exact List.cons_ne_nil _ _

/-- Every exchange but the last succeeded, and the last one decides the reply. -/
theorem stops (h : Fed segments exchanges reply) (hsome : segments ≠ []) :
    (∀ exchange ∈ exchanges.dropLast, exchange.reply = .ok ()) ∧
      exchanges.getLast?.map Exchange.reply = some reply := by
  induction h with
  | done => exact absurd rfl hsome
  | @accepted segment later exchanges reply hlater ih =>
      by_cases hend : later = []
      · subst hend
        cases hlater
        simp
      · have hnext := hlater.exchanges_ne_nil hend
        obtain ⟨hbefore, hlast⟩ := ih hend
        rw [List.dropLast_cons_of_ne_nil hnext, List.getLast?_cons_of_ne_nil hnext]
        exact ⟨List.forall_mem_cons.mpr ⟨rfl, hbefore⟩, hlast⟩
  | refused segment later fault => simp

end Fed

/-- Every call waits until the queue has run empty, but for the one that fills it. -/
def Call.Waits : Call → Prop
  | enqueue _ => False
  | _ => True

namespace Controller

variable {Q : Type}

def answer [MotionQueue Q] (call : Call) (c : Controller Q) : Reply × Controller Q :=
  match call with
  | .enqueue m => (c.enqueue m).value
  | .motorEnable on => (c.motorEnable on).value
  | .drain => c.drain
  | .setCeiling ceiling => c.setCeiling ceiling

/-- The controller over a traced copy of its queue, before any exchange. -/
def traced (c : Controller Q) : Controller (Traced Q) := ⟨⟨c.queue, []⟩, c.timing⟩

/-- How a call can go: from the timing before it, over the exchanges with the queue,
to the reply and the timing after it. -/
inductive Course (t : Timing) : Call → List Exchange → Reply → Timing → Prop where
  | turnedAway {m : Movement} {fault : Fault} (hplan : (t.plan m).value = .error fault) :
      Course t (.enqueue m) [] (.error fault) t
  | fed {m : Movement} {plan : Plan} {exchanges : List Exchange} {reply : Reply}
      (hplan : (t.plan m).value = .ok plan)
      (hfed : Fed (plan.segments.map Logged.value) exchanges reply) :
      Course t (.enqueue m) exchanges reply t
  | notDrained (call : Call) (hwaits : call.Waits) (fault : Fault) :
      Course t call [⟨.drain, .error fault⟩] (.error fault) t
  | drained : Course t .drain [⟨.drain, .ok ()⟩] (.ok ()) t
  | switched (on : Bool) (reply : Reply) :
      Course t (.motorEnable on) [⟨.drain, .ok ()⟩, ⟨.enable on, reply⟩] reply t
  | limited {ceiling : Frequency} {changed : Timing}
      (hlimit : t.withCeiling ceiling = .ok changed) :
      Course t (.setCeiling ceiling) [⟨.drain, .ok ()⟩] (.ok ()) changed
  | notLimited {ceiling : Frequency} {fault : Fault}
      (hlimit : t.withCeiling ceiling = .error fault) :
      Course t (.setCeiling ceiling) [⟨.drain, .ok ()⟩] (.error fault) t

variable [MotionQueue Q]

theorem feed_traced (log : List Event) (segments : List (Logged Segment)) (q : Traced Q) :
    ∃ (reply : Reply) (queue : Q) (exchanges : List Exchange),
      (feed log segments q).1 = (reply, ⟨queue, q.exchanges ++ exchanges⟩) ∧
        (feed log segments q.queue).1 = (reply, queue) ∧
        Fed (segments.map Logged.value) exchanges reply := by
  induction segments generalizing log q with
  | nil => exact ⟨.ok (), q.queue, [], by simp [feed], rfl, .done⟩
  | cons segment later ih =>
      cases hanswer : MotionQueue.enqueue segment.value q.queue with
      | mk reply queue =>
          have htraced : MotionQueue.enqueue segment.value q =
              (reply, ⟨queue, q.exchanges ++ [⟨.segment segment.value, reply⟩]⟩) := by
            change q.note (.segment segment.value) (MotionQueue.enqueue segment.value q.queue) = _
            rw [hanswer]
            rfl
          cases reply with
          | error fault =>
              refine ⟨.error fault, queue, [⟨.segment segment.value, .error fault⟩], ?_, ?_,
                .refused _ _ fault⟩
              · simp only [feed, htraced]
              · simp only [feed, hanswer]
          | ok =>
              obtain ⟨reply, queue', exchanges, hfeed, hsame, hfed⟩ :=
                ih (segment.events.reverse ++ log)
                  ⟨queue, q.exchanges ++ [⟨.segment segment.value, .ok ()⟩]⟩
              refine ⟨reply, queue', ⟨.segment segment.value, .ok ()⟩ :: exchanges, ?_, ?_,
                .accepted hfed⟩
              · simp only [feed, htraced]
                rw [hfeed, List.append_assoc]
                rfl
              · simp only [feed, hanswer]
                exact hsame

theorem drain_eq {c : Controller Q} {reply : Reply} {queue : Q}
    (hdrain : MotionQueue.drain c.queue = (reply, queue)) :
    c.drain = (reply, ⟨queue, c.timing⟩) ∧
      c.traced.drain = (reply, ⟨⟨queue, [⟨.drain, reply⟩]⟩, c.timing⟩) := by
  have htraced : MotionQueue.drain c.traced.queue =
      c.traced.queue.note .drain (MotionQueue.drain c.queue) := rfl
  rw [hdrain] at htraced
  unfold drain
  rw [hdrain, htraced]
  exact ⟨rfl, rfl⟩

theorem answer_enqueue_of_error {c : Controller Q} {m : Movement} {fault : Fault}
    (hplan : (c.timing.plan m).value = .error fault) :
    c.answer (.enqueue m) = (.error fault, c) := by
  simp [answer, enqueue, hplan]

theorem answer_enqueue_of_ok {c : Controller Q} {m : Movement} {plan : Plan}
    (hplan : (c.timing.plan m).value = .ok plan) :
    c.answer (.enqueue m) =
      ((feed [] plan.segments c.queue).1.1, ⟨(feed [] plan.segments c.queue).1.2, c.timing⟩) := by
  simp [answer, enqueue, hplan]

theorem answer_of_not_drained {c : Controller Q} {call : Call} {fault : Fault} {queue : Q}
    (hwaits : call.Waits) (hdrain : c.drain = (.error fault, ⟨queue, c.timing⟩)) :
    c.answer call = (.error fault, ⟨queue, c.timing⟩) := by
  cases call with
  | enqueue => exact hwaits.elim
  | motorEnable => simp [answer, motorEnable, hdrain]
  | drain => exact hdrain
  | setCeiling => simp [answer, setCeiling, hdrain]

/-- A traced copy answers as the controller does, and its exchanges are one of the
courses of the call. -/
def Follows (c : Controller Q) (call : Call) : Prop :=
  ∃ (reply : Reply) (next : Controller Q) (exchanges : List Exchange),
    c.answer call = (reply, next) ∧
      c.traced.answer call = (reply, ⟨⟨next.queue, exchanges⟩, next.timing⟩) ∧
      Course c.timing call exchanges reply next.timing

theorem follows_enqueue (c : Controller Q) (m : Movement) : c.Follows (.enqueue m) := by
  cases hplan : (c.timing.plan m).value with
  | error fault =>
      exact ⟨.error fault, c, [], answer_enqueue_of_error hplan,
        answer_enqueue_of_error (c := c.traced) hplan, .turnedAway hplan⟩
  | ok plan =>
      obtain ⟨reply, queue, exchanges, htraced, hsame, hfed⟩ :=
        feed_traced [] plan.segments c.traced.queue
      have hplain : (feed [] plan.segments c.queue).1 = (reply, queue) := hsame
      refine ⟨reply, ⟨queue, c.timing⟩, exchanges, ?_, ?_, .fed hplan hfed⟩
      · rw [answer_enqueue_of_ok hplan, hplain]
      · rw [answer_enqueue_of_ok (c := c.traced) hplan, htraced]
        rfl

theorem follows_of_waits (c : Controller Q) {call : Call} (hwaits : call.Waits) :
    c.Follows call := by
  cases hdrain : MotionQueue.drain c.queue with
  | mk reply drained =>
      obtain ⟨hplain, htraced⟩ := drain_eq hdrain
      cases reply with
      | error fault =>
          exact ⟨.error fault, ⟨drained, c.timing⟩, [⟨.drain, .error fault⟩],
            answer_of_not_drained hwaits hplain, answer_of_not_drained hwaits htraced,
            .notDrained call hwaits fault⟩
      | ok =>
          cases call with
          | enqueue => exact hwaits.elim
          | motorEnable on =>
              refine ⟨_, ⟨(MotionQueue.motorEnable on drained).2, c.timing⟩, _, ?_, ?_,
                .switched on (MotionQueue.motorEnable on drained).1⟩
              · simp [answer, motorEnable, hplain]
              · simp only [answer, motorEnable, htraced]
                rfl
          | drain =>
              exact ⟨.ok (), ⟨drained, c.timing⟩, [⟨.drain, .ok ()⟩], hplain, htraced, .drained⟩
          | setCeiling ceiling =>
              cases hlimit : c.timing.withCeiling ceiling with
              | error fault =>
                  refine ⟨.error fault, ⟨drained, c.timing⟩, [⟨.drain, .ok ()⟩], ?_, ?_,
                    .notLimited hlimit⟩
                  · simp [answer, setCeiling, hplain, hlimit]
                  · simp [answer, setCeiling, htraced, hlimit]
              | ok changed =>
                  refine ⟨.ok (), ⟨drained, changed⟩, [⟨.drain, .ok ()⟩], ?_, ?_, .limited hlimit⟩
                  · simp [answer, setCeiling, hplain, hlimit]
                  · simp [answer, setCeiling, htraced, hlimit]

theorem follows (c : Controller Q) (call : Call) : c.Follows call := by
  cases call with
  | enqueue m => exact c.follows_enqueue m
  | motorEnable | drain | setCeiling => exact c.follows_of_waits trivial

end Controller

end PulseTrain
