import PulseTrain.Proofs.DefiningAxis
import PulseTrain.Proofs.Playback.Edges
import PulseTrain.Synthesis

/-!
# The segment of a movement that fits

A fraction is truncated, but what it loses over all loops of the segment is less
than one change of the line: the last change of an axis may come too late, and it
would have been the falling edge after its last step.  So every axis makes
exactly its steps.  Which phase is active hangs on the speeds alone, and no
comparison of speeds affects the number of loops.
-/

namespace PulseTrain

/-! ## Fractions -/

theorem toNat_mul_fractionScale (steps : Int32) :
    ((stepMagnitude steps).toUInt64 * fractionScale).toNat = steps.toInt.natAbs * 2 ^ 31 := by
  have hsteps := natAbs_toInt_le steps
  have hscale : fractionScale.toNat = 2 ^ 31 := rfl
  rw [UInt64.toNat_mul, UInt32.toNat_toUInt64, toNat_stepMagnitude, hscale]
  exact Nat.mod_eq_of_lt (by omega)

theorem toNat_fraction {steps : Int32} {definingSteps : UInt32}
    (hle : steps.toInt.natAbs ≤ definingSteps.toNat) :
    (fraction steps definingSteps).toNat =
      steps.toInt.natAbs * 2 ^ 31 / definingSteps.toNat := by
  have hquotient : steps.toInt.natAbs * 2 ^ 31 / definingSteps.toNat ≤ 2 ^ 31 := by
    apply Nat.div_le_of_le_mul
    exact Nat.mul_le_mul_right _ hle
  unfold fraction
  rw [UInt64.toNat_toUInt32, UInt64.toNat_div, toNat_mul_fractionScale, UInt32.toNat_toUInt64]
  exact Nat.mod_eq_of_lt (by omega)

theorem toNat_fraction_le {steps : Int32} {definingSteps : UInt32}
    (hle : steps.toInt.natAbs ≤ definingSteps.toNat) :
    (fraction steps definingSteps).toNat ≤ 2 ^ 31 := by
  rw [toNat_fraction hle]
  apply Nat.div_le_of_le_mul
  exact Nat.mul_le_mul_right _ hle

theorem toNat_fraction_of_eq {steps : Int32} {definingSteps : UInt32}
    (hpos : 0 < definingSteps.toNat)
    (heq : steps.toInt.natAbs = definingSteps.toNat) :
    (fraction steps definingSteps).toNat = 2 ^ 31 := by
  rw [toNat_fraction heq.le, heq]
  exact Nat.mul_div_cancel_left _ hpos

theorem toNat_fraction_eq_zero_iff {steps : Int32} {definingSteps : UInt32}
    (hpos : 0 < definingSteps.toNat) (hfits : definingSteps.toNat ≤ 32767)
    (hle : steps.toInt.natAbs ≤ definingSteps.toNat) :
    (fraction steps definingSteps).toNat = 0 ↔ steps.toInt = 0 := by
  rw [toNat_fraction hle, Nat.div_eq_zero_iff]
  omega

/-- The truncation of a fraction costs no step. -/
theorem stepsAfter_fraction {steps : Int32} {definingSteps : UInt32}
    (hpos : 0 < definingSteps.toNat) (hfits : definingSteps.toNat ≤ 32767)
    (hle : steps.toInt.natAbs ≤ definingSteps.toNat) :
    stepsAfter (fraction steps definingSteps) (2 * definingSteps.toNat) =
      steps.toInt.natAbs := by
  have hdivision := Nat.div_add_mod (steps.toInt.natAbs * 2 ^ 31) definingSteps.toNat
  have hremainder := Nat.mod_lt (steps.toInt.natAbs * 2 ^ 31) hpos
  unfold stepsAfter lineChanges
  rw [toNat_fraction hle, Nat.mul_assoc]
  omega

/-! ## Phases -/

namespace Timing

theorem loops_phase (t : Timing) (m : Movement) (definingSteps : UInt32) :
    (t.phase m definingSteps).value.loops = (loopsPerStep * definingSteps).toUInt16 := by
  unfold phase
  simp only
  split
  next => rfl
  next =>
    split
    next => rfl
    next => rfl

end Timing

/-- The loop counter holds all loops of a movement that fits. -/
theorem toNat_loops {definingSteps : UInt32} (hfits : definingSteps.toNat ≤ 32767) :
    (loopsPerStep * definingSteps).toUInt16.toNat = 2 * definingSteps.toNat := by
  have htwo : loopsPerStep.toNat = 2 := rfl
  rw [UInt32.toNat_toUInt16, UInt32.toNat_mul, htwo]
  omega

theorem Segment.filter_loops {s : Segment} (hloops : s.loops ≠ 0) :
    [s.accelerationLoops, s.travelLoops, s.decelerationLoops].filter (· ≠ 0) = [s.loops] := by
  unfold Segment.loops accelerationLoops travelLoops decelerationLoops at *
  cases hphase : s.phase with
  | accelerate ramp =>
      have hramp : ramp.loops ≠ 0 := by simpa [hphase, Phase.loops] using hloops
      simp [hramp, Phase.loops]
  | travel loops delayCycles =>
      have htravel : loops ≠ 0 := by simpa [hphase, Phase.loops] using hloops
      simp [htravel, Phase.loops]
  | decelerate ramp =>
      have hramp : ramp.loops ≠ 0 := by simpa [hphase, Phase.loops] using hloops
      simp [hramp, Phase.loops]

/-! ## Segments -/

/-- The segment plays back `m`: its fields are in range and every axis makes its
steps in its direction. -/
structure Segment.PlaysBack (m : Movement) (s : Segment) : Prop where
  slot : s.slot = .filled
  outputs : s.outputs = m.outputs
  onePhase : [s.accelerationLoops, s.travelLoops, s.decelerationLoops].filter (· ≠ 0) =
    [s.loops]
  loops : s.loops.toNat = 2 * m.definingSteps.toNat
  fraction_le : ∀ axis : Axis, (s.fractions.get axis).toNat ≤ 2 ^ 31
  exists_fraction_eq : ∃ axis : Axis, (s.fractions.get axis).toNat = 2 ^ 31
  fraction_eq_zero_iff : ∀ axis : Axis,
    (s.fractions.get axis).toNat = 0 ↔ (m.steps.get axis).toInt = 0
  isReversed_iff : ∀ axis : Axis,
    s.isReversed axis = true ↔ (m.steps.get axis).toInt < 0
  pulses : ∀ axis : Axis, s.pulses.get axis = (m.steps.get axis).toInt.natAbs

theorem Movement.contains_reversed (m : Movement) (axis : Axis) :
    m.reversed.contains axis = true ↔ (m.steps.get axis).toInt < 0 := by
  unfold reversed
  rw [AxisMask.contains_ofAxes, Axes.get_map, decide_eq_true_eq, Int32.lt_iff_toInt_lt]
  rfl

theorem Timing.playsBack_synthesize (t : Timing) {m : Movement}
    (hpos : 0 < m.definingSteps.toNat) (hfits : m.definingSteps.toNat ≤ 32767) :
    (t.synthesize m m.definingSteps).value.PlaysBack m := by
  have hmost : ∀ axis : Axis, (m.steps.get axis).toInt.natAbs ≤ m.definingSteps.toNat :=
    natAbs_le_largestMagnitude m.steps
  have hloops : (t.synthesize m m.definingSteps).value.loops.toNat =
      2 * m.definingSteps.toNat := by
    rw [← toNat_loops hfits, ← t.loops_phase m]
    rfl
  have hfraction : ∀ axis : Axis,
      (t.synthesize m m.definingSteps).value.fractions.get axis =
        fraction (m.steps.get axis) m.definingSteps :=
    fun axis => Axes.get_map _ m.steps axis
  refine ⟨rfl, rfl, ?_, hloops, ?_, ?_, ?_, m.contains_reversed, ?_⟩
  · apply Segment.filter_loops
    intro hzero
    rw [hzero] at hloops
    simp only [UInt16.reduceToNat] at hloops
    omega
  · intro axis
    rw [hfraction axis]
    exact toNat_fraction_le (hmost axis)
  · obtain ⟨axis, haxis⟩ := exists_natAbs_eq_largestMagnitude m.steps
    refine ⟨axis, ?_⟩
    rw [hfraction axis]
    exact toNat_fraction_of_eq hpos haxis
  · intro axis
    rw [hfraction axis]
    exact toNat_fraction_eq_zero_iff hpos hfits (hmost axis)
  · intro axis
    have hle := toNat_fraction_le (hmost axis)
    rw [← hfraction axis] at hle
    rw [Segment.get_pulses hle, hloops, hfraction axis]
    exact stepsAfter_fraction hpos hfits (hmost axis)

end PulseTrain
