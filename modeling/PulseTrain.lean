import PulseTrain.Config.Settings
import PulseTrain.Controller.Setup
import PulseTrain.Queue.Recorder
import PulseTrain.Queue.Ring
import PulseTrain.Segment.Wire
import PulseTrain.Proofs.Plan.Distance
import PulseTrain.Proofs.Plan.Segments
import PulseTrain.Proofs.Playback.Loops
import PulseTrain.Proofs.Queue.Delivery
import PulseTrain.Proofs.Queue.Quiescence
import PulseTrain.Proofs.Plan.Lines
import PulseTrain.Proofs.Plan.StraightLine
import PulseTrain.Proofs.Binary.Magnitude
import PulseTrain.Proofs.Binary.Single
import PulseTrain.Proofs.Division.Speeds
import PulseTrain.Proofs.Timing.Ceiling
import PulseTrain.Proofs.Segment.Wire
import PulseTrain.Proofs.Plan.Refusal
import PulseTrain.Proofs.Controller.Exchanges
import PulseTrain.Proofs.Controller.Failures
import PulseTrain.Proofs.Controller.Validity
import PulseTrain.Proofs.Binary.Signed
import PulseTrain.Proofs.Binary.Double
import PulseTrain.Proofs.Division.Continuity
import PulseTrain.Proofs.Division.Course
import PulseTrain.Proofs.Division.Acceleration
import PulseTrain.Proofs.Plan.ConstantSpeed
import PulseTrain.Proofs.Playback.Commands
import PulseTrain.Proofs.Timing.TravelOrder
import PulseTrain.Proofs.Timing.Stops
import PulseTrain.Proofs.Plan.Unsplit
import PulseTrain.Proofs.Plan.Words
import PulseTrain.Proofs.Timing.Saturation
import PulseTrain.Proofs.Binary.Squares
import PulseTrain.Proofs.Timing.PhaseChoice
import PulseTrain.Proofs.Timing.RampDelays
import PulseTrain.Proofs.Text.Clip
