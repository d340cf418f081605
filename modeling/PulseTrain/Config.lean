import PulseTrain.Queue
import PulseTrain.Timing

/-!
# Configurations

The settings of a machine: its timing and the polarity of its enable line.  They
come from a document, and whoever reads it, what is read is checked before it is
used.
-/

namespace PulseTrain

structure Config where
  timing : Timing := {}
  enable : EnableLine := {}

namespace Config

/-- The timing is all that can be wrong with a configuration. -/
def check (c : Config) : Except Fault Unit := c.timing.check

variable (read : String → Except String Config)

/-- The configuration that `read` finds in a document. -/
def parseWith (source : String) : Except Fault Config := do
  let config ← (read source).mapError fun reason => .config (.document (.ofReason reason))
  config.check
  return config

/-- The configuration in a file, which is given by its text or by the reason why
there is none. -/
def loadWith (contents : Except String String) : Except Fault Config := do
  let source ← contents.mapError fun reason => .config (.unreadable (.ofReason reason))
  parseWith read source

end Config

end PulseTrain
