import PulseTrain.Decimal.Text
import PulseTrain.Text.Clip

/-!
# Faults

Why a configuration, a movement or a call to the queue was refused, and the
wording of each refusal.
-/

namespace PulseTrain

/-- The size of a stored message in bytes. -/
def DocumentFault.capacity : Nat := 128

/-- Why a configuration document or its file could not be read, in the words of
the reader.  Only the head of these is stored. -/
structure DocumentFault where
  message : String
  fits : message.utf8ByteSize ≤ DocumentFault.capacity

def DocumentFault.ofReason (reason : String) : DocumentFault where
  message := Text.clip capacity reason
  fits := Text.utf8ByteSize_clip_le capacity reason

inductive ConfigFault where
  | document (fault : DocumentFault)
  /-- The timer frequency is not a positive number. -/
  | timerFrequency (value : Float32)
  /-- The ceiling is not a positive number or the timer cannot reach it. -/
  | frequencyLimit (limit highest : Float32)
  | missing (part : String)
  | unreadable (fault : DocumentFault)

inductive MotionFault where
  | zeroLength
  /-- A speed is negative or no finite number. -/
  | speed (value : Float32)

inductive QueueFault where
  | enablePin

inductive Fault where
  | config (fault : ConfigFault)
  | motion (fault : MotionFault)
  | queue (fault : QueueFault)

def ConfigFault.message : ConfigFault → String
  | document fault => s!"Parse error: {fault.message}"
  | timerFrequency value =>
    s!"Invalid timer frequency: {Decimal.ofSingle value} Hz. Must be > 0"
  | frequencyLimit limit highest =>
    s!"Invalid frequency limit: {Decimal.ofSingle limit} Hz. " ++
      s!"Must be > 0 and <= {Decimal.ofSingle highest} Hz"
  | missing part => s!"{part} is required"
  | unreadable fault => s!"I/O error: {fault.message}"

def MotionFault.message : MotionFault → String
  | zeroLength => "Zero steps on every axis, movement ignored"
  | speed value => s!"Invalid speed {Decimal.ofSingle value}: must be finite and >= 0"

def QueueFault.message : QueueFault → String
  | enablePin => "Motor enable pin operation failed"

namespace Fault

/-- The text of a fault without its area. -/
def detail : Fault → String
  | config fault => fault.message
  | motion fault => fault.message
  | queue fault => fault.message

def message : Fault → String
  | config fault => s!"Configuration error: {fault.message}"
  | motion fault => s!"Motion error: {fault.message}"
  | queue fault => s!"Queue error: {fault.message}"

end Fault

end PulseTrain
