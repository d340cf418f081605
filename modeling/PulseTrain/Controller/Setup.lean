import PulseTrain.Config
import PulseTrain.Controller

/-!
# Setting up a controller

Settings are collected one by one, the last one of a kind counting, and checked
when the controller is built.
-/

namespace PulseTrain

structure Setup (Q : Type) where
  queue : Option Q := none
  timing : Timing := {}

namespace Setup

variable {Q : Type}

def setQueue (queue : Q) (s : Setup Q) : Setup Q := { s with queue := some queue }

def setClock (clock : Frequency) (s : Setup Q) : Setup Q :=
  { s with timing := { s.timing with clock } }

def setCeiling (ceiling : Frequency) (s : Setup Q) : Setup Q :=
  { s with timing := { s.timing with ceiling } }

def setTiming (timing : Timing) (s : Setup Q) : Setup Q := { s with timing }

def setConfig (config : Config) (s : Setup Q) : Setup Q := s.setTiming config.timing

/-- The controller with these settings.  A missing queue is noticed before an
invalid timing. -/
def build (s : Setup Q) : Except Fault (Controller Q) := do
  match s.queue with
  | none => .error (.config (.missing "queue"))
  | some queue =>
    let timing ← s.timing.validated
    pure { queue, timing }

end Setup

end PulseTrain
