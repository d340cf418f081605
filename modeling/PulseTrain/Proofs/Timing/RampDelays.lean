import PulseTrain.Proofs.DefiningAxis
import PulseTrain.Proofs.Timing.Delays

/-!
# Delays along a ramp

A ramp has one scale, which is divided by a sum of two roots that grows with the index of
the loop.  No rounding on the way exchanges two results, so the divisors of later loops are
never smaller, not even where neighbouring indices have become the same number, and the
delays never grow.  The scale may overflow or vanish, but the divisors are at least one and
finite, so that no quotient is indeterminate.

The first loop has the divisor one and a scale of its own.  That is more than half of the
common scale, and all later divisors are two or more.

An acceleration of zero, which a ramp has where the quotient of squares by distance is too
small for single precision, makes the scale infinite, and the delay is clamped to the longest
that its field can hold.
-/

namespace PulseTrain

open Single
open Binary (root root_mono root_one root_sq rounded_magnitude rounded_mono)
open scoped ENNReal

variable {clock : Frequency} {acceleration : Float32} {i j : UInt32}

/-! ## The divisor -/

/-- The sum of roots by which the scale of a ramp is divided. -/
def rootSum (index : UInt32) : Float32 :=
  (index.toFloat32 + 1).sqrt + index.toFloat32.sqrt

theorem magnitude_rootSum (index : UInt32) :
    Unsigned (rootSum index) ∧
      magnitude (rootSum index) =
        rounded (rounded (root (rounded (rounded index.toNat + 1))) +
          rounded (root (rounded index.toNat))) := by
  obtain ⟨hindex, hindexValue⟩ := toFloat32 index
  obtain ⟨hnext, hnextValue⟩ := add hindex (y := 1) rfl
  obtain ⟨hlow, hlowValue⟩ := sqrt hindex
  obtain ⟨hhigh, hhighValue⟩ := sqrt hnext
  obtain ⟨hsum, hsumValue⟩ := add hhigh hlow
  rw [hhighValue, hlowValue, hnextValue, hindexValue, magnitude_one] at hsumValue
  exact ⟨hsum, hsumValue⟩

theorem magnitude_rootSum_mono (h : i ≤ j) :
    magnitude (rootSum i) ≤ magnitude (rootSum j) := by
  have hindex : rounded i.toNat ≤ rounded j.toNat :=
    rounded_mono (by exact_mod_cast UInt32.le_iff_toNat_le.mp h)
  have hnext : rounded (rounded i.toNat + 1) ≤ rounded (rounded j.toNat + 1) :=
    rounded_mono (by gcongr)
  rw [(magnitude_rootSum i).2, (magnitude_rootSum j).2]
  apply rounded_mono
  exact add_le_add (rounded_mono (root_mono hnext)) (rounded_mono (root_mono hindex))

theorem magnitude_rootSum_zero : magnitude (rootSum 0) = 1 := by
  rw [(magnitude_rootSum 0).2, UInt32.toNat_zero, Nat.cast_zero]
  simp [rounded_one]

theorem two_le_magnitude_rootSum (h : i ≠ 0) : 2 ≤ magnitude (rootSum i) := by
  have hindex : 1 ≤ rounded i.toNat :=
    one_le_rounded (by exact_mod_cast toNat_pos_of_ne_zero h)
  have hnext : 1 ≤ rounded (rounded i.toNat + 1) := one_le_rounded le_add_self
  have hroot {x : ℝ≥0∞} (hx : 1 ≤ x) : 1 ≤ rounded (root x) :=
    one_le_rounded (root_one.ge.trans (root_mono hx))
  have htwo : rounded 2 = 2 := by
    rw [← magnitude_two]
    exact rounded_magnitude (stored _)
  rw [(magnitude_rootSum i).2, ← htwo, ← one_add_one_eq_two]
  exact rounded_mono (add_le_add (hroot hnext) (hroot hindex))

theorem magnitude_rootSum_ne_top (index : UInt32) : magnitude (rootSum index) ≠ ⊤ := by
  have hindex : rounded index.toNat ≤ 2 ^ 32 :=
    rounded_le_two_pow (by norm_num) (by exact_mod_cast index.toNat_lt.le)
  have hnext : rounded (rounded index.toNat + 1) ≤ 2 ^ 34 := by
    refine rounded_le_two_pow (by norm_num) ((add_le_add_left hindex 1).trans ?_)
    norm_num
  have hroot {x : ℝ≥0∞} (hx : x ≤ 2 ^ 34) : rounded (root x) ≤ 2 ^ 17 := by
    apply rounded_le_two_pow (by norm_num)
    calc root x ≤ root ((2 ^ 17) ^ 2) := root_mono (by rwa [← pow_mul])
      _ = 2 ^ 17 := root_sq _
  have hsum : magnitude (rootSum index) ≤ 2 ^ 18 := by
    rw [(magnitude_rootSum index).2]
    apply rounded_le_two_pow (by norm_num)
    calc rounded (root (rounded (rounded index.toNat + 1))) + rounded (root (rounded index.toNat))
        ≤ 2 ^ 17 + 2 ^ 17 :=
          add_le_add (hroot hnext) (hroot (hindex.trans (by norm_num)))
      _ = 2 ^ 18 := by norm_num
  exact ne_top_of_le_ne_top (by simp) hsum

theorem div_rootSum {x : Float32} (hx : Unsigned x) (index : UInt32) :
    Unsigned (x / rootSum index) ∧
      magnitude (x / rootSum index) = rounded (magnitude x / magnitude (rootSum index)) := by
  have hleast : 1 ≤ magnitude (rootSum index) := by
    rw [← magnitude_rootSum_zero]
    exact magnitude_rootSum_mono UInt32.zero_le
  exact div hx (magnitude_rootSum index).1 (fun _ => (zero_lt_one.trans_le hleast).ne')
    (fun _ => magnitude_rootSum_ne_top index)

/-! ## The scale -/

theorem magnitude_four : magnitude (loopsPerStep.toFloat32 * 2) = 4 := by
  change ENNReal.ofReal ((8388608 : ℕ) * 2 ^ (-21 : ℤ)) = 4
  norm_num

/-- However small or large the acceleration is, the scale of a ramp has a value. -/
theorem magnitude_rampScale (hclock : clock.isValid = true)
    (hacceleration : Unsigned acceleration) :
    Unsigned (rampScale clock acceleration) ∧
      magnitude (rampScale clock acceleration) =
        rounded (rounded (magnitude clock.hertz *
          rounded (root (rounded (4 / magnitude acceleration)))) / 2) := by
  obtain ⟨hclock, hclockZero, hclockTop⟩ := Frequency.of_isValid hclock
  have hfour : Unsigned (loopsPerStep.toFloat32 * 2) := rfl
  obtain ⟨hquot, hquotValue⟩ := div hfour hacceleration
    (fun h => by simp [magnitude_four] at h) (fun h => by simp [magnitude_four] at h)
  obtain ⟨hroot, hrootValue⟩ := sqrt hquot
  obtain ⟨hproduct, hproductValue⟩ :=
    mul hclock hroot (fun h => absurd h hclockZero) (fun _ => hclockTop)
  obtain ⟨hscale, hscaleValue⟩ := div_two hproduct
  rw [hproductValue, hrootValue, hquotValue, magnitude_four] at hscaleValue
  exact ⟨hscale, hscaleValue⟩

theorem half_le_firstLoopCorrection : 1 / 2 ≤ magnitude firstLoopCorrection := by
  rw [← magnitude_half]
  exact (le_iff (x := 0.5) (y := firstLoopCorrection) rfl rfl).mp (by decide)

theorem magnitude_firstLoopCorrection_ne_zero : magnitude firstLoopCorrection ≠ 0 :=
  (lt_of_lt_of_le (by norm_num) half_le_firstLoopCorrection).ne'

theorem mul_firstLoopCorrection {x : Float32} (hx : Unsigned x) :
    Unsigned (x * firstLoopCorrection) ∧
      magnitude (x * firstLoopCorrection) =
        rounded (magnitude x * magnitude firstLoopCorrection) :=
  mul hx rfl (fun _ => magnitude_ne_top (by decide))
    (fun h => absurd h magnitude_firstLoopCorrection_ne_zero)

/-! ## The delay -/

theorem magnitude_rampDelay_zero (hscale : Unsigned (rampScale clock acceleration)) :
    Unsigned (rampDelay clock acceleration 0) ∧
      magnitude (rampDelay clock acceleration 0) =
        rounded (magnitude (rampScale clock acceleration) * magnitude firstLoopCorrection) := by
  obtain ⟨hfirst, hfirstValue⟩ := mul_firstLoopCorrection hscale
  obtain ⟨hdelay, hdelayValue⟩ := div_rootSum hfirst 0
  refine ⟨hdelay, hdelayValue.trans ?_⟩
  rw [magnitude_rootSum_zero, div_one, ← hfirstValue]
  exact rounded_magnitude (stored _)

theorem magnitude_rampDelay (hscale : Unsigned (rampScale clock acceleration)) (h : i ≠ 0) :
    Unsigned (rampDelay clock acceleration i) ∧
      magnitude (rampDelay clock acceleration i) =
        rounded (magnitude (rampScale clock acceleration) / magnitude (rootSum i)) := by
  have hdelay : rampDelay clock acceleration i = rampScale clock acceleration / rootSum i := by
    rw [rampDelay, if_neg h]
    rfl
  rw [hdelay]
  exact div_rootSum hscale i

theorem unsigned_rampDelay (hscale : Unsigned (rampScale clock acceleration)) (index : UInt32) :
    Unsigned (rampDelay clock acceleration index) := by
  rcases eq_or_ne index 0 with rfl | hindex
  · exact (magnitude_rampDelay_zero hscale).1
  · exact (magnitude_rampDelay hscale hindex).1

theorem magnitude_rampDelay_le (hscale : Unsigned (rampScale clock acceleration)) (h : i ≤ j) :
    magnitude (rampDelay clock acceleration j) ≤ magnitude (rampDelay clock acceleration i) := by
  rcases eq_or_ne j 0 with rfl | hj
  · rw [UInt32.le_zero_iff.mp h]
  rw [(magnitude_rampDelay hscale hj).2]
  rcases eq_or_ne i 0 with rfl | hi
  · -- The scales differ here, but the divisor more than makes up for it.
    rw [(magnitude_rampDelay_zero hscale).2]
    apply rounded_mono
    calc magnitude (rampScale clock acceleration) / magnitude (rootSum j)
        ≤ magnitude (rampScale clock acceleration) / 2 :=
          ENNReal.div_le_div_left (two_le_magnitude_rootSum hj) _
      _ = magnitude (rampScale clock acceleration) * (1 / 2) := by rw [div_eq_mul_inv, one_div]
      _ ≤ magnitude (rampScale clock acceleration) * magnitude firstLoopCorrection := by
          gcongr
          exact half_le_firstLoopCorrection
  · rw [(magnitude_rampDelay hscale hi).2]
    apply rounded_mono
    exact ENNReal.div_le_div_left (magnitude_rootSum_mono h) _

/-- A later loop of a ramp never lasts longer, and no delay is negative or indeterminate. -/
theorem rampDelay_never_grows (hclock : clock.isValid = true) (hacceleration : 0 < acceleration)
    (h : i ≤ j) :
    rampDelay clock acceleration j ≤ rampDelay clock acceleration i ∧
      ∀ index, (rampDelay clock acceleration index).isNaN = false ∧
        0 ≤ rampDelay clock acceleration index := by
  have hscale := (magnitude_rampScale hclock (unsigned_of_pos hacceleration).1).1
  have hunsigned := unsigned_rampDelay hscale
  refine ⟨?_, fun index => ⟨isNaN_of_unsigned (hunsigned index), nonneg (hunsigned index)⟩⟩
  rw [le_iff (hunsigned j) (hunsigned i)]
  exact magnitude_rampDelay_le hscale h

/-- The lowest acceleration makes the scale infinite, and the two indices are one number in
single precision. -/
theorem rampDelay_never_grows_at_lowest_acceleration :
    Frequency.isValid ⟨200000000⟩ = true ∧ 0 < Float32.ofBits 1 ∧
      (16777216 : UInt32) ≤ 16777217 ∧
      rampDelay ⟨200000000⟩ (Float32.ofBits 1) 16777217 ≤
        rampDelay ⟨200000000⟩ (Float32.ofBits 1) 16777216 ∧
      (rampDelay ⟨200000000⟩ (Float32.ofBits 1) 16777217).isNaN = false ∧
      0 ≤ rampDelay ⟨200000000⟩ (Float32.ofBits 1) 16777217 := by
  have hclock : Frequency.isValid ⟨200000000⟩ = true := by decide
  have hacceleration : 0 < Float32.ofBits 1 := by decide
  have hle : (16777216 : UInt32) ≤ 16777217 := by decide
  obtain ⟨hdelays, hvalues⟩ := rampDelay_never_grows hclock hacceleration hle
  exact ⟨hclock, hacceleration, hle, hdelays, hvalues 16777217⟩

/-! ## No acceleration -/

theorem magnitude_rampScale_of_no_acceleration (hclock : clock.isValid = true) :
    Unsigned (rampScale clock 0) ∧ magnitude (rampScale clock 0) = ⊤ := by
  have hunsigned : Unsigned 0 := rfl
  have hzero : magnitude 0 = 0 := Binary.magnitude_zero
  obtain ⟨hscale, hvalue⟩ := magnitude_rampScale hclock hunsigned
  have hproduct : magnitude clock.hertz * ⊤ = ⊤ :=
    ENNReal.mul_top (Frequency.of_isValid hclock).2.1
  refine ⟨hscale, hvalue.trans ?_⟩
  simp [hzero, hproduct, ENNReal.div_zero, ENNReal.top_div]

theorem magnitude_rampDelay_of_no_acceleration (hclock : clock.isValid = true) (index : UInt32) :
    Unsigned (rampDelay clock 0 index) ∧ magnitude (rampDelay clock 0 index) = ⊤ := by
  obtain ⟨hscale, hvalue⟩ := magnitude_rampScale_of_no_acceleration hclock
  refine ⟨unsigned_rampDelay hscale index, ?_⟩
  rcases eq_or_ne index 0 with rfl | hindex
  · rw [(magnitude_rampDelay_zero hscale).2, hvalue,
      ENNReal.top_mul magnitude_firstLoopCorrection_ne_zero]
    exact Binary.rounded_top
  · rw [(magnitude_rampDelay hscale hindex).2, hvalue,
      ENNReal.top_div_of_ne_top (magnitude_rootSum_ne_top index)]
    exact Binary.rounded_top

/-- A ramp without acceleration begins with the longest delay that its field can hold. -/
theorem Timing.fineCycles_of_no_acceleration {t : Timing} (hclock : t.clock.isValid = true)
    (loops : UInt16) (entrySquare : Float32) :
    (t.ramp loops entrySquare 0).value.fineCycles = 0xFFFFFFFF := by
  obtain ⟨hdelay, hdelayValue⟩ := magnitude_rampDelay_of_no_acceleration hclock
    (t.ramp loops entrySquare 0).value.seriesIndex
  have hfactor : magnitude 32 ≠ 0 := (unsigned_of_pos (by decide)).2
  obtain ⟨hfine, hfineValue⟩ := mul (x := 32) rfl hdelay (fun h => absurd h hfactor)
    (fun _ => magnitude_ne_top rfl)
  have htop : rounded ⊤ = ⊤ := Binary.rounded_top
  rw [hdelayValue, ENNReal.mul_top hfactor, htop] at hfineValue
  have hcount := toNat_cycleCount hfine
  rw [hfineValue, wholeCycles, if_pos rfl] at hcount
  exact UInt32.toNat_inj.mp hcount

example : (Timing.phase {} (.ofSteps [1000] 0 1e-22 0) 1000).value =
    .accelerate ⟨2000, 0, 0xFFFFFFFF⟩ := by decide +kernel

end PulseTrain
