import PulseTrain.Config.Settings
import PulseTrain.Controller.Setup
import PulseTrain.Proofs.Controller.Failures

/-!
# The timing stays valid

Only a checked timing comes into force: when a controller is built, when a
configuration is read and when the ceiling is changed.  A setup counts the last
write to each field, whatever else was written before or in between.  From then on
the clock never changes, and the ceiling is the last one that was accepted.
-/

namespace PulseTrain

namespace Timing

theorem check_eq_error_iff {t : Timing} {fault : Fault} :
    t.check = .error fault ↔
      t.clock.isValid = false ∧ fault = .config (.timerFrequency t.clock.hertz) ∨
        t.clock.isValid = true ∧
          (t.ceiling.isValid = false ∨ t.highestCeiling.hertz < t.ceiling.hertz) ∧
            fault = .config (.frequencyLimit t.ceiling.hertz t.highestCeiling.hertz) := by
  unfold check
  cases hclock : t.clock.isValid with
  | false => simp [Eq.comm (a := fault)]
  | true =>
      by_cases hceiling : t.ceiling.isValid = false ∨ t.highestCeiling.hertz < t.ceiling.hertz
      · simp [hceiling, Eq.comm (a := fault)]
      · simp [hceiling]

theorem validated_eq_error_iff {t : Timing} {fault : Fault} :
    t.validated = .error fault ↔ t.check = .error fault := by
  unfold validated
  cases hcheck : t.check <;> simp [Except.map]

theorem check_default : ({} : Timing).check = .ok () := rfl

/-- What is in force of a timing after the given ceilings were accepted. -/
structure Kept (built : Timing) (accepted : List Frequency) (t : Timing) : Prop where
  check : t.check = .ok ()
  clock : t.clock = built.clock
  ceiling : t.ceiling = accepted.getLast?.getD built.ceiling

theorem Kept.initial {t : Timing} (hcheck : t.check = .ok ()) : t.Kept [] t :=
  ⟨hcheck, rfl, rfl⟩

theorem Kept.accept {built t changed : Timing} {accepted : List Frequency} {ceiling : Frequency}
    (h : built.Kept accepted t) (hchange : t.withCeiling ceiling = .ok changed) :
    built.Kept (accepted ++ [ceiling]) changed := by
  obtain ⟨rfl, hcheck⟩ := withCeiling_eq_ok_iff.mp hchange
  exact ⟨hcheck, h.clock, by simp⟩

/-- The ceilings that are accepted when a timing is asked for one after another. -/
def accepted (t : Timing) : List Frequency → List Frequency
  | [] => []
  | ceiling :: later =>
      match t.withCeiling ceiling with
      | .ok changed => ceiling :: changed.accepted later
      | .error _ => t.accepted later

theorem Kept.attempts {built t : Timing} {earlier : List Frequency} (h : built.Kept earlier t)
    (ceilings : List Frequency) :
    built.Kept (earlier ++ t.accepted ceilings) (ceilings.foldl underCeiling t) := by
  induction ceilings generalizing t earlier with
  | nil => simpa [accepted] using h
  | cons ceiling later ih =>
      rw [accepted, List.foldl_cons, underCeiling]
      cases hchange : t.withCeiling ceiling with
      | error fault => exact ih h
      | ok changed => simpa using ih (h.accept hchange)

example : ({} : Timing).accepted [⟨0 / 0⟩, ⟨-1⟩, ⟨200000⟩, ⟨1 / 0⟩] = [⟨200000⟩] := rfl

end Timing

/-- The ceiling that a call brought into force. -/
def Performed.accepted? (p : Performed) : Option Frequency :=
  match p.call, p.reply with
  | .setCeiling ceiling, .ok () => some ceiling
  | _, _ => none

namespace Controller

/-- A call brings a ceiling into force or leaves the timing alone. -/
theorem Course.accepts {t after : Timing} {call : Call} {exchanges : List Exchange} {reply : Reply}
    (h : Course t call exchanges reply after) :
    (∃ ceiling, call = .setCeiling ceiling ∧ reply = .ok () ∧ t.withCeiling ceiling = .ok after) ∨
      (∀ ceiling, call = .setCeiling ceiling → reply ≠ .ok ()) ∧ after = t := by
  cases h with
  | @limited ceiling changed hlimit => exact .inl ⟨ceiling, rfl, rfl, hlimit⟩
  | _ => exact .inr ⟨by simp, rfl⟩

variable {Q : Type} [MotionQueue Q]

def afterCalls (c : Controller Q) (calls : List Call) : Controller Q :=
  calls.foldl (fun c call => (c.answer call).2) c

theorem kept_answer {built : Timing} {earlier : List Frequency} {c : Controller Q}
    (h : built.Kept earlier c.timing) (call : Call) :
    built.Kept (earlier ++ (c.observe call).accepted?.toList) (c.answer call).2.timing := by
  have hcourse := c.course_observe call
  rcases hcourse.accepts with ⟨ceiling, hcall, hreply, hchange⟩ | ⟨hnone, hsame⟩
  · have haccepted : (c.observe call).accepted? = some ceiling := by
      have hcalled : (c.observe call).call = .setCeiling ceiling := hcall
      simp [Performed.accepted?, hcalled, hreply]
    rw [haccepted]
    exact h.accept hchange
  · have haccepted : (c.observe call).accepted? = none := by
      unfold Performed.accepted?
      split
      next ceiling hcall hreply => exact absurd hreply (hnone ceiling hcall)
      next => rfl
    have hsame : (c.answer call).2.timing = c.timing := hsame
    rw [haccepted, Option.toList_none, List.append_nil, hsame]
    exact h

theorem kept_afterCalls {built : Timing} {earlier : List Frequency} (c : Controller Q)
    (h : built.Kept earlier c.timing) (calls : List Call) :
    built.Kept (earlier ++ (c.history calls).filterMap Performed.accepted?)
      (c.afterCalls calls).timing := by
  induction calls generalizing c earlier with
  | nil => simpa [history, afterCalls] using h
  | cons call later ih =>
      have hnext := ih (c.answer call).2 (kept_answer h call)
      rw [List.append_assoc] at hnext
      have hsplit : (c.history (call :: later)).filterMap Performed.accepted? =
          (c.observe call).accepted?.toList ++
            ((c.answer call).2.history later).filterMap Performed.accepted? := by
        rw [history, List.filterMap_cons]
        cases (c.observe call).accepted? <;> rfl
      rw [hsplit]
      exact hnext

end Controller

theorem bind_eq_ok_iff {ε α β : Type} {x : Except ε α} {f : α → Except ε β} {b : β} :
    x >>= f = .ok b ↔ ∃ a, x = .ok a ∧ f a = .ok b := by
  cases x with
  | error fault => exact ⟨nofun, nofun⟩
  | ok a => exact ⟨fun h => ⟨a, rfl, h⟩, fun ⟨_, ha, h⟩ => Except.ok.inj ha ▸ h⟩

/-- Whatever reads a document, what it has read is checked. -/
theorem Config.check_of_parseWith {read : String → Except String Config} {source : String}
    {config : Config} (h : parseWith read source = .ok config) : config.timing.check = .ok () := by
  obtain ⟨found, -, hchecked⟩ := bind_eq_ok_iff.mp h
  obtain ⟨⟨⟩, hcheck, hreturn⟩ := bind_eq_ok_iff.mp hchecked
  cases hreturn
  exact hcheck

example : Config.parse "" = .ok {} := rfl

namespace Setup

variable {Q : Type}

/-- A setting that is written before a controller is built. -/
inductive Write (Q : Type) where
  | queue (queue : Q)
  | clock (clock : Frequency)
  | ceiling (ceiling : Frequency)
  | timing (timing : Timing)
  | config (config : Config)

namespace Write

def apply (write : Write Q) (s : Setup Q) : Setup Q :=
  match write with
  | .queue q => s.setQueue q
  | .clock f => s.setClock f
  | .ceiling f => s.setCeiling f
  | .timing t => s.setTiming t
  | .config c => s.setConfig c

def queue? : Write Q → Option Q
  | .queue q => some q
  | _ => none

def clock? : Write Q → Option Frequency
  | .clock f => some f
  | .timing t => some t.clock
  | .config c => some c.timing.clock
  | .queue _ | .ceiling _ => none

def ceiling? : Write Q → Option Frequency
  | .ceiling f => some f
  | .timing t => some t.ceiling
  | .config c => some c.timing.ceiling
  | .queue _ | .clock _ => none

end Write

def ofWrites (writes : List (Write Q)) : Setup Q := writes.foldl (fun s write => write.apply s) {}

/-- The last value that was written to a field. -/
def lastWrite? {α : Type} (field? : Write Q → Option α) (writes : List (Write Q)) : Option α :=
  (writes.filterMap field?).getLast?

theorem lastWrite?_append {α : Type} (field? : Write Q → Option α) (writes : List (Write Q))
    (write : Write Q) :
    lastWrite? field? (writes ++ [write]) = (field? write).or (lastWrite? field? writes) := by
  unfold lastWrite?
  cases hfield : field? write <;> simp [hfield]

/-- The timing made of the last write to each of its fields. -/
def lastTiming (writes : List (Write Q)) : Timing where
  clock := (lastWrite? Write.clock? writes).getD ({} : Timing).clock
  ceiling := (lastWrite? Write.ceiling? writes).getD ({} : Timing).ceiling

theorem ofWrites_eq (writes : List (Write Q)) :
    ofWrites writes = ⟨lastWrite? Write.queue? writes, lastTiming writes⟩ := by
  induction writes using List.reverseRecOn with
  | nil => rfl
  | append_singleton earlier write ih =>
      have hstep : ofWrites (earlier ++ [write]) = write.apply (ofWrites earlier) := by
        simp [ofWrites]
      rw [hstep, ih, lastTiming, lastTiming, lastWrite?_append, lastWrite?_append,
        lastWrite?_append]
      cases write <;> rfl

theorem build_eq_ok_iff {s : Setup Q} {c : Controller Q} :
    s.build = .ok c ↔ s.queue = some c.queue ∧ c.timing = s.timing ∧ s.timing.check = .ok () := by
  unfold build
  cases hqueue : s.queue with
  | none => simp
  | some queue =>
      cases hvalid : s.timing.validated with
      | error fault =>
          have hcheck := Timing.validated_eq_error_iff.mp hvalid
          simp [hcheck]
      | ok timing =>
          obtain ⟨rfl, hcheck⟩ := Timing.validated_eq_ok_iff.mp hvalid
          obtain ⟨queue', timing⟩ := c
          simp [hcheck, eq_comm]

theorem build_eq_error_iff {s : Setup Q} {fault : Fault} :
    s.build = .error fault ↔
      s.queue = none ∧ fault = .config (.missing "queue") ∨
        s.queue ≠ none ∧ s.timing.check = .error fault := by
  unfold build
  cases hqueue : s.queue with
  | none => simp [eq_comm]
  | some queue =>
      rw [← Timing.validated_eq_error_iff]
      cases hvalid : s.timing.validated <;> simp

theorem lastTiming_of_config {earlier : List (Write Q)} {config : Config} {queues : List Q} :
    lastTiming (earlier ++ .config config :: queues.map .queue) = config.timing := by
  have hclock : (queues.map Write.queue).filterMap Write.clock? = [] := by
    simp [List.filterMap_map, Function.comp_def, Write.clock?]
  have hceiling : (queues.map Write.queue).filterMap Write.ceiling? = [] := by
    simp [List.filterMap_map, Function.comp_def, Write.ceiling?]
  simp [lastTiming, lastWrite?, hclock, hceiling, Write.clock?, Write.ceiling?]

end Setup

theorem Setup.timing_valid_on_every_path {Q : Type} [MotionQueue Q] :
    (∀ writes : List (Write Q),
      (∀ c, (ofWrites writes).build = .ok c ↔
        lastWrite? Write.queue? writes = some c.queue ∧ c.timing = lastTiming writes ∧
          (lastTiming writes).check = .ok ()) ∧
      (∀ fault, (ofWrites writes).build = .error fault ↔
        lastWrite? Write.queue? writes = none ∧ fault = .config (.missing "queue") ∨
          lastWrite? Write.queue? writes ≠ none ∧ (lastTiming writes).check = .error fault) ∧
      ∀ fault, (lastTiming writes).check = .error fault ↔
        (lastTiming writes).clock.isValid = false ∧
            fault = .config (.timerFrequency (lastTiming writes).clock.hertz) ∨
          (lastTiming writes).clock.isValid = true ∧
            ((lastTiming writes).ceiling.isValid = false ∨
              (lastTiming writes).highestCeiling.hertz < (lastTiming writes).ceiling.hertz) ∧
            fault = .config (.frequencyLimit (lastTiming writes).ceiling.hertz
              (lastTiming writes).highestCeiling.hertz)) ∧
    (∀ (read : String → Except String Config) (source : String) (config : Config),
      Config.parseWith read source = .ok config →
      ∀ (earlier : List (Write Q)) (queues : List Q),
        lastWrite? Write.queue? (earlier ++ .config config :: queues.map .queue) ≠ none →
          ∃ c, (ofWrites (earlier ++ .config config :: queues.map .queue)).build = .ok c ∧
            c.timing = config.timing) ∧
    (∀ (t : Timing) (ceiling : Frequency) (changed : Timing),
      t.withCeiling ceiling = .ok changed ↔
        changed = { t with ceiling } ∧ ({ t with ceiling } : Timing).check = .ok ()) ∧
    (∀ t : Timing, (t = {} ∨ ∃ unchecked : Timing, unchecked.validated = .ok t) →
      ∀ ceilings, t.Kept (t.accepted ceilings) (ceilings.foldl Timing.underCeiling t)) ∧
    (∀ c : Controller Q,
      (c.timing = {} ∨ (∃ unchecked : Timing, unchecked.validated = .ok c.timing) ∨
        ∃ writes, (ofWrites writes).build = .ok c) →
      ∀ calls, c.timing.Kept ((c.history calls).filterMap Performed.accepted?)
        (c.afterCalls calls).timing) := by
  have hstart : ∀ t : Timing, (t = {} ∨ ∃ unchecked : Timing, unchecked.validated = .ok t) →
      t.check = .ok () := by
    rintro t (rfl | ⟨unchecked, hvalid⟩)
    · exact Timing.check_default
    · obtain ⟨rfl, hcheck⟩ := Timing.validated_eq_ok_iff.mp hvalid
      exact hcheck
  refine ⟨fun writes => ⟨fun c => ?_, fun fault => ?_, fun fault => Timing.check_eq_error_iff⟩,
    fun read source config hparse earlier queues hqueue => ?_,
    fun t ceiling changed => Timing.withCeiling_eq_ok_iff, fun t ht ceilings => ?_,
    fun c hc calls => ?_⟩
  · rw [build_eq_ok_iff, ofWrites_eq]
  · rw [build_eq_error_iff, ofWrites_eq]
  · obtain ⟨queue, hqueue⟩ := Option.ne_none_iff_exists'.mp hqueue
    refine ⟨⟨queue, config.timing⟩, ?_, rfl⟩
    rw [build_eq_ok_iff, ofWrites_eq, lastTiming_of_config]
    exact ⟨hqueue, rfl, Config.check_of_parseWith hparse⟩
  · exact (Timing.Kept.initial (hstart t ht)).attempts ceilings
  · have hcheck : c.timing.check = .ok () := by
      rcases hc with hdefault | hvalid | ⟨writes, hbuild⟩
      · exact hstart c.timing (.inl hdefault)
      · exact hstart c.timing (.inr hvalid)
      · obtain ⟨-, htiming, hcheck⟩ := build_eq_ok_iff.mp hbuild
        exact htiming ▸ hcheck
    exact c.kept_afterCalls (.initial hcheck) calls

end PulseTrain
