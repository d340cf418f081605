import PulseTrain.Segment

/-!
# The wire layout of a segment

The pulse generator reads a segment as 54 bytes, every number with its lowest
byte first: slot state, reversed axes, loops of acceleration, travel and
deceleration, outputs, series index, first ramp delay, travel delay and the
eight fractions.
-/

namespace PulseTrain

namespace Wire

def bytes16 (x : UInt16) : List UInt8 := [x.toUInt8, (x >>> 8).toUInt8]

def bytes32 (x : UInt32) : List UInt8 :=
  [x.toUInt8, (x >>> 8).toUInt8, (x >>> 16).toUInt8, (x >>> 24).toUInt8]

@[simp] theorem length_bytes16 (x : UInt16) : (bytes16 x).length = 2 := rfl

@[simp] theorem length_bytes32 (x : UInt32) : (bytes32 x).length = 4 := rfl

def size : Nat := 2 + 4 * 2 + 3 * 4 + axisCount * 4

end Wire

def SlotState.code : SlotState → UInt8
  | empty => 0
  | filled => 1

def Segment.toWire (s : Segment) : List UInt8 :=
  [s.slot.code, UInt8.ofBitVec s.reversed] ++
  Wire.bytes16 s.accelerationLoops ++
  Wire.bytes16 s.travelLoops ++
  Wire.bytes16 s.decelerationLoops ++
  Wire.bytes16 s.outputs ++
  Wire.bytes32 s.seriesIndex ++
  Wire.bytes32 s.fineCycles ++
  Wire.bytes32 s.travelDelay ++
  s.fractions.toList.flatMap Wire.bytes32

theorem Segment.length_toWire (s : Segment) : s.toWire.length = Wire.size := by
  simp [toWire, Wire.size, List.length_flatMap, List.map_const']
  omega

end PulseTrain
