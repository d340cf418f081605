import PulseTrain.Axes

/-!
# Events

What a planner and a controller report while they work.  A computation that
reports events is a value together with the events in the order in which they
occurred, so what was reported can be read off the result.
-/

namespace PulseTrain

inductive Level where
  | trace
  | debug
  | warning
  deriving DecidableEq, Repr

inductive Event where
  | zeroLength
  /-- A cycle count did not fit its field; `value` is the count before rounding. -/
  | tooSlow (value : Float32)
  | splitting (definingSteps divisions : UInt32)
  | idleDivision
  | synthesized (directions : AxisMask)
  | motorEnable (on : Bool)

namespace Event

def level : Event → Level
  | zeroLength | tooSlow _ | idleDivision => .warning
  | splitting .. | motorEnable _ => .debug
  | synthesized _ => .trace

def message : Event → String
  | zeroLength => "zero steps, ignoring movement"
  | tooSlow _ => "too slow for the timer, clamping to u32::MAX"
  | splitting .. => "splitting movement"
  | idleDivision => "zero steps in division, skipping it"
  | synthesized _ => "segment synthesized"
  | motorEnable _ => "motor enable"

end Event

/-- A value and the events reported on the way to it. -/
structure Logged (α : Type u) where
  value : α
  events : List Event

namespace Logged

def report (event : Event) : Logged Unit := ⟨(), [event]⟩

protected def pure (a : α) : Logged α := ⟨a, []⟩

protected def bind (x : Logged α) (f : α → Logged β) : Logged β :=
  ⟨(f x.value).value, x.events ++ (f x.value).events⟩

instance : Monad Logged where
  pure := Logged.pure
  bind := Logged.bind

@[simp] theorem value_pure (a : α) : (pure a : Logged α).value = a := rfl

@[simp] theorem events_pure (a : α) : (pure a : Logged α).events = [] := rfl

@[simp] theorem value_bind (x : Logged α) (f : α → Logged β) :
    (x >>= f).value = (f x.value).value := rfl

@[simp] theorem events_bind (x : Logged α) (f : α → Logged β) :
    (x >>= f).events = x.events ++ (f x.value).events := rfl

@[simp] theorem events_report (event : Event) : (report event).events = [event] := rfl

end Logged

end PulseTrain
