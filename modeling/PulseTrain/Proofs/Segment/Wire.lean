import Mathlib.Tactic
import PulseTrain.Segment.Wire

/-!
# Reading the wire layout

The layout has a fixed place for every number, so it can be read field by field.
The phases share the fields of the ramp and each has a loop count of its own; a
segment that has loops to run can be told from the one count that is not zero,
and then all 54 bytes give it back.  A segment without loops has three counts of
zero and only its phase is lost.
-/

namespace PulseTrain

namespace Wire

/-- The number with the given bytes, the lowest one first. -/
def number : List UInt8 → ℕ
  | [] => 0
  | byte :: later => byte.toNat + 256 * number later

theorem number_bytes16 (x : UInt16) : number (bytes16 x) = x.toNat := by
  have hlow : x.toUInt8.toNat = x.toNat % 256 := UInt16.toNat_toUInt8 x
  have hhigh : (x >>> 8).toUInt8.toNat = x.toNat / 256 % 256 := by
    rw [UInt16.toNat_toUInt8, UInt16.toNat_shiftRight]
    exact congrArg (· % 256) (Nat.shiftRight_eq_div_pow x.toNat 8)
  have hlt := x.toNat_lt
  simp only [bytes16, number]
  omega

theorem number_bytes32 (x : UInt32) : number (bytes32 x) = x.toNat := by
  have hbyte : ∀ k : UInt32, k.toNat < 32 →
      (x >>> k).toUInt8.toNat = x.toNat / 2 ^ k.toNat % 256 := by
    intro k hk
    rw [UInt32.toNat_toUInt8, UInt32.toNat_shiftRight, Nat.mod_eq_of_lt hk,
      Nat.shiftRight_eq_div_pow]
  have hfirst : x.toUInt8.toNat = x.toNat % 256 := UInt32.toNat_toUInt8 x
  have hsecond : (x >>> 8).toUInt8.toNat = x.toNat / 2 ^ 8 % 256 := hbyte 8 (by decide)
  have hthird : (x >>> 16).toUInt8.toNat = x.toNat / 2 ^ 16 % 256 := hbyte 16 (by decide)
  have hfourth : (x >>> 24).toUInt8.toNat = x.toNat / 2 ^ 24 % 256 := hbyte 24 (by decide)
  have hlt := x.toNat_lt
  simp only [bytes32, number]
  omega

/-- The place of a number in the layout, in bytes. -/
structure Field where
  offset : ℕ
  width : ℕ

namespace Field

def slot : Field := ⟨0, 1⟩
def reversed : Field := ⟨1, 1⟩
def accelerationLoops : Field := ⟨2, 2⟩
def travelLoops : Field := ⟨4, 2⟩
def decelerationLoops : Field := ⟨6, 2⟩
def outputs : Field := ⟨8, 2⟩
def seriesIndex : Field := ⟨10, 4⟩
def fineCycles : Field := ⟨14, 4⟩
def travelDelay : Field := ⟨18, 4⟩
def fraction (axis : Axis) : Field := ⟨22 + 4 * axis.val, 4⟩

def bytes (f : Field) (wire : List UInt8) : List UInt8 := (wire.drop f.offset).take f.width

def read (f : Field) (wire : List UInt8) : ℕ := number (f.bytes wire)

end Field

/-- Among blocks of one length, the bytes of a block stand where its index says. -/
theorem take_drop_flatMap {α : Type} {block : α → List UInt8} {width : ℕ}
    (hwidth : ∀ x, (block x).length = width) {l : List α} {i : ℕ} {x : α}
    (hget : l[i]? = some x) : ((l.flatMap block).drop (width * i)).take width = block x := by
  induction l generalizing i with
  | nil => simp at hget
  | cons first later ih =>
      rw [List.flatMap_cons]
      cases i with
      | zero =>
          obtain rfl : first = x := by simpa using hget
          rw [Nat.mul_zero, List.drop_zero, List.take_left' (hwidth first)]
      | succ i =>
          have hskip : width * (i + 1) = (block first).length + width * i := by
            rw [hwidth first]
            ring
          rw [hskip, ← List.drop_drop, List.drop_left]
          exact ih (by simpa using hget)

end Wire

def SlotState.ofCode? : ℕ → Option SlotState
  | 0 => some .empty
  | 1 => some .filled
  | _ => none

/-- The phase is the one that has loops. -/
def Phase.ofWire (wire : List UInt8) : Phase :=
  let ramp (loops : ℕ) : Ramp :=
    { loops := loops.toUInt16
      seriesIndex := (Wire.Field.seriesIndex.read wire).toUInt32
      fineCycles := (Wire.Field.fineCycles.read wire).toUInt32 }
  if Wire.Field.accelerationLoops.read wire ≠ 0 then
    .accelerate (ramp (Wire.Field.accelerationLoops.read wire))
  else if Wire.Field.decelerationLoops.read wire ≠ 0 then
    .decelerate (ramp (Wire.Field.decelerationLoops.read wire))
  else
    .travel (Wire.Field.travelLoops.read wire).toUInt16
      (Wire.Field.travelDelay.read wire).toUInt32

/-- The fields of the two other phases; both ramps use the same two besides their loops. -/
def Phase.inactiveFields : Phase → List Wire.Field
  | accelerate _ => [.travelLoops, .travelDelay, .decelerationLoops]
  | travel .. => [.accelerationLoops, .decelerationLoops, .seriesIndex, .fineCycles]
  | decelerate _ => [.accelerationLoops, .travelLoops, .travelDelay]

namespace Segment

/-- The segment in the given bytes, if there are as many as the layout has and the
slot state is one of the two. -/
def ofWire? (wire : List UInt8) : Option Segment :=
  if wire.length = Wire.size then
    (SlotState.ofCode? (Wire.Field.slot.read wire)).map fun slot =>
      { reversed := .ofNat axisCount (Wire.Field.reversed.read wire)
        fractions := Vector.ofFn fun axis => ((Wire.Field.fraction axis).read wire).toUInt32
        phase := .ofWire wire
        outputs := (Wire.Field.outputs.read wire).toUInt16
        slot }
  else none

variable (s : Segment)

theorem read_slot : Wire.Field.slot.read s.toWire = s.slot.code.toNat := rfl

theorem read_reversed : Wire.Field.reversed.read s.toWire = s.reversed.toNat := rfl

theorem read_accelerationLoops :
    Wire.Field.accelerationLoops.read s.toWire = s.accelerationLoops.toNat :=
  Wire.number_bytes16 s.accelerationLoops

theorem read_travelLoops : Wire.Field.travelLoops.read s.toWire = s.travelLoops.toNat :=
  Wire.number_bytes16 s.travelLoops

theorem read_decelerationLoops :
    Wire.Field.decelerationLoops.read s.toWire = s.decelerationLoops.toNat :=
  Wire.number_bytes16 s.decelerationLoops

theorem read_outputs : Wire.Field.outputs.read s.toWire = s.outputs.toNat :=
  Wire.number_bytes16 s.outputs

theorem read_seriesIndex : Wire.Field.seriesIndex.read s.toWire = s.seriesIndex.toNat :=
  Wire.number_bytes32 s.seriesIndex

theorem read_fineCycles : Wire.Field.fineCycles.read s.toWire = s.fineCycles.toNat :=
  Wire.number_bytes32 s.fineCycles

theorem read_travelDelay : Wire.Field.travelDelay.read s.toWire = s.travelDelay.toNat :=
  Wire.number_bytes32 s.travelDelay

theorem read_fraction (axis : Axis) :
    (Wire.Field.fraction axis).read s.toWire = (s.fractions.get axis).toNat := by
  have hget : s.fractions.toList[axis.val]? = some (s.fractions.get axis) := by
    simp [Vector.get]
  have hblock := Wire.take_drop_flatMap Wire.length_bytes32 hget
  have hskip : s.toWire.drop (22 + 4 * axis.val) =
      (s.fractions.toList.flatMap Wire.bytes32).drop (4 * axis.val) := by
    rw [← List.drop_drop]
    rfl
  rw [Wire.Field.read, Wire.Field.bytes, Wire.Field.fraction, hskip, hblock,
    Wire.number_bytes32]

theorem ofWire_toWire {s : Segment} (hloops : s.loops ≠ 0) : Phase.ofWire s.toWire = s.phase := by
  have hnonzero : s.loops.toNat ≠ 0 := fun hzero => hloops (UInt16.toNat_inj.mp hzero)
  simp only [Phase.ofWire, read_accelerationLoops, read_travelLoops, read_decelerationLoops,
    read_seriesIndex, read_fineCycles, read_travelDelay]
  cases hphase : s.phase with
  | accelerate ramp =>
      simp only [loops, hphase, Phase.loops] at hnonzero
      simp [accelerationLoops, seriesIndex, fineCycles, hphase, Phase.ramp?, hnonzero]
  | travel loops delayCycles =>
      simp [accelerationLoops, travelLoops, decelerationLoops, travelDelay, hphase, Phase.delay?]
  | decelerate ramp =>
      simp only [loops, hphase, Phase.loops] at hnonzero
      simp [accelerationLoops, decelerationLoops, seriesIndex, fineCycles, hphase, Phase.ramp?,
        hnonzero]

theorem ofWire?_toWire {s : Segment} (hloops : s.loops ≠ 0) : ofWire? s.toWire = some s := by
  have hslot : SlotState.ofCode? s.slot.code.toNat = some s.slot := by
    cases s.slot <;> rfl
  have hreversed : BitVec.ofNat axisCount s.reversed.toNat = s.reversed :=
    BitVec.eq_of_toNat_eq (by simp)
  have hfractions : Vector.ofFn (fun axis : Axis => (s.fractions.get axis).toNat.toUInt32) =
      s.fractions := by
    ext axis hlt
    simp [Vector.get]
  unfold ofWire?
  rw [if_pos s.length_toWire, ofWire_toWire hloops, read_slot, hslot, read_reversed, hreversed,
    read_outputs]
  simp only [read_fraction, hfractions]
  simp

theorem read_eq_zero {field : Wire.Field} (hfield : field ∈ s.phase.inactiveFields) :
    field.read s.toWire = 0 := by
  cases hphase : s.phase with
  | accelerate ramp =>
      simp only [hphase, Phase.inactiveFields, List.mem_cons, List.not_mem_nil, or_false] at hfield
      rcases hfield with rfl | rfl | rfl
      · simp [read_travelLoops, travelLoops, hphase]
      · simp [read_travelDelay, travelDelay, hphase, Phase.delay?]
      · simp [read_decelerationLoops, decelerationLoops, hphase]
  | travel loops delayCycles =>
      simp only [hphase, Phase.inactiveFields, List.mem_cons, List.not_mem_nil, or_false] at hfield
      rcases hfield with rfl | rfl | rfl | rfl
      · simp [read_accelerationLoops, accelerationLoops, hphase]
      · simp [read_decelerationLoops, decelerationLoops, hphase]
      · simp [read_seriesIndex, seriesIndex, hphase, Phase.ramp?]
      · simp [read_fineCycles, fineCycles, hphase, Phase.ramp?]
  | decelerate ramp =>
      simp only [hphase, Phase.inactiveFields, List.mem_cons, List.not_mem_nil, or_false] at hfield
      rcases hfield with rfl | rfl | rfl
      · simp [read_accelerationLoops, accelerationLoops, hphase]
      · simp [read_travelLoops, travelLoops, hphase]
      · simp [read_travelDelay, travelDelay, hphase, Phase.delay?]

/-- The layout loses nothing of a segment that has loops to run, and every field of
it, whatever the loops, holds what the segment says.  Fields of phases that are not
active are zero. -/
theorem wire_lossless (s : Segment) :
    (s.loops ≠ 0 → ofWire? s.toWire = some s) ∧
      (s.loops ≠ 0 → ∀ s' : Segment, s'.loops ≠ 0 → s.toWire = s'.toWire → s = s') ∧
      s.toWire.length = 54 ∧
      Wire.Field.slot.read s.toWire = s.slot.code.toNat ∧
      Wire.Field.reversed.read s.toWire = s.reversed.toNat ∧
      Wire.Field.accelerationLoops.read s.toWire = s.accelerationLoops.toNat ∧
      Wire.Field.travelLoops.read s.toWire = s.travelLoops.toNat ∧
      Wire.Field.decelerationLoops.read s.toWire = s.decelerationLoops.toNat ∧
      Wire.Field.outputs.read s.toWire = s.outputs.toNat ∧
      Wire.Field.seriesIndex.read s.toWire = s.seriesIndex.toNat ∧
      Wire.Field.fineCycles.read s.toWire = s.fineCycles.toNat ∧
      Wire.Field.travelDelay.read s.toWire = s.travelDelay.toNat ∧
      (∀ axis : Axis, (Wire.Field.fraction axis).read s.toWire = (s.fractions.get axis).toNat) ∧
      ∀ field : Wire.Field, field ∈ s.phase.inactiveFields → field.read s.toWire = 0 := by
  refine ⟨ofWire?_toWire, ?_, s.length_toWire, s.read_slot, s.read_reversed,
    s.read_accelerationLoops, s.read_travelLoops, s.read_decelerationLoops, s.read_outputs,
    s.read_seriesIndex, s.read_fineCycles, s.read_travelDelay, s.read_fraction,
    fun field => s.read_eq_zero⟩
  intro hloops s' hloops' hwire
  have hdecoded := ofWire?_toWire hloops
  rw [hwire, ofWire?_toWire hloops'] at hdecoded
  exact (Option.some.inj hdecoded).symm

/-- A ramp down with numbers in every byte of its fields. -/
theorem wire_lossless_of_ramp :
    let s : Segment :=
      { reversed := 0b101#8, fractions := Axes.ofList 0 [0x80000000, 0x40000000, 0x12345678]
        phase := .decelerate ⟨2000, 77, 0xDEADBEEF⟩, outputs := 0x0102, slot := .filled }
    s.loops ≠ 0 ∧ ofWire? s.toWire = some s ∧ Wire.Field.fineCycles.read s.toWire = 0xDEADBEEF := by
  intro s
  have hloops : s.loops ≠ 0 := by decide
  obtain ⟨hdecoded, -, -, -, -, -, -, -, -, -, hfine, -⟩ := wire_lossless s
  exact ⟨hloops, hdecoded hloops, hfine⟩

end Segment

end PulseTrain
