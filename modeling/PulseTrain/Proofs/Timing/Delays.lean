import PulseTrain.Proofs.Binary.Single
import PulseTrain.Synthesis

/-!
# Travel delays

The delay of a travelling loop as a function of the exact speed.  It is a chain of
functions that are monotone or antitone, so that a slower speed never has the
shorter delay and the speed at the ceiling has the shortest of all.
-/

namespace PulseTrain

open Float.Model Single
open scoped ENNReal

noncomputable section

/-- The whole number nearest to a count of cycles, clamped to 32 bits. -/
def wholeCycles (x : ℝ≥0∞) : ℕ :=
  if x = ⊤ then 4294967295 else min (round x.toReal).toNat 4294967295

theorem wholeCycles_of_ne_top {x : ℝ≥0∞} (hx : x ≠ ⊤) :
    wholeCycles x = min ⌊x.toReal + 1 / 2⌋₊ 4294967295 := by
  rw [wholeCycles, if_neg hx, round_eq, Int.floor_toNat]

theorem wholeCycles_mono : Monotone wholeCycles := by
  intro x y h
  by_cases hy : y = ⊤
  · unfold wholeCycles
    rw [if_pos hy]
    split_ifs <;> omega
  · rw [wholeCycles_of_ne_top hy, wholeCycles_of_ne_top (ne_top_of_le_ne_top hy h)]
    have := Nat.floor_mono (add_le_add_left (ENNReal.toReal_mono hy h) (1 / 2))
    omega

/-- A count that is not clamped is short by half a cycle at most. -/
theorem le_wholeCycles_add_half {x : ℝ≥0∞} (h : wholeCycles x ≠ 4294967295) :
    x ≤ wholeCycles x + 1 / 2 := by
  by_cases htop : x = ⊤
  · exact absurd (if_pos htop) h
  have hfloor : wholeCycles x = ⌊x.toReal + 1 / 2⌋₊ := by
    rw [wholeCycles_of_ne_top htop] at h ⊢
    omega
  have hlt := Nat.lt_floor_add_one (x.toReal + 1 / 2)
  rw [← hfloor] at hlt
  calc x = .ofReal x.toReal := (ENNReal.ofReal_toReal htop).symm
    _ ≤ .ofReal (wholeCycles x + 1 / 2) := ENNReal.ofReal_le_ofReal (by linarith)
    _ = wholeCycles x + 1 / 2 := by
        rw [ENNReal.ofReal_add (by positivity) (by positivity), ENNReal.ofReal_natCast,
          ENNReal.ofReal_div_of_pos two_pos, ENNReal.ofReal_one, ENNReal.ofReal_ofNat]

theorem unsigned_cycleLimit : Unsigned cycleLimit := rfl

theorem magnitude_cycleLimit : magnitude cycleLimit = .ofReal (2 ^ 32) := by
  change ENNReal.ofReal ((8388608 : ℕ) * 2 ^ (9 : ℤ)) = _
  norm_num

theorem roundNat_add_one_lt_of_not_le {x : Float32} (h : ¬cycleLimit ≤ x) :
    Binary.roundNat x + 1 < 2 ^ 32 := by
  by_cases hx : Unsigned x
  · apply roundNat_add_one_lt hx
    rw [← magnitude_cycleLimit]
    exact not_le.mp ((le_iff unsigned_cycleLimit hx).not.mp h)
  · simp [roundNat_of_not_unsigned hx]

theorem toNat_cycleCount_of_not_le {x : Float32} (h : ¬cycleLimit ≤ x) :
    (cycleCount x).value.toNat = Binary.roundNat x := by
  have hfits := roundNat_add_one_lt_of_not_le h
  rw [cycleCount, if_neg h, Logged.value_pure]
  exact Nat.mod_eq_of_lt (by omega)

theorem toNat_cycleCount {x : Float32} (hx : Unsigned x) :
    (cycleCount x).value.toNat = wholeCycles (magnitude x) := by
  have hlimit := le_iff unsigned_cycleLimit hx
  rw [magnitude_cycleLimit] at hlimit
  by_cases hlarge : cycleLimit ≤ x
  · rw [cycleCount, if_pos hlarge]
    change 4294967295 = _
    by_cases htop : magnitude x = ⊤
    · exact (if_pos htop).symm
    · have := (ENNReal.ofReal_le_iff_le_toReal htop).mp (hlimit.mp hlarge)
      have : 4294967295 ≤ ⌊(magnitude x).toReal + 1 / 2⌋₊ := by
        apply Nat.le_floor
        push_cast
        linarith
      rw [wholeCycles_of_ne_top htop]
      omega
  · have hfits := roundNat_add_one_lt_of_not_le hlarge
    have hsmall : magnitude x < .ofReal (2 ^ 32) := not_le.mp (hlimit.not.mp hlarge)
    rw [toNat_cycleCount_of_not_le hlarge, wholeCycles_of_ne_top hsmall.ne_top,
      ← roundNat_eq hx hsmall.ne_top]
    omega

theorem not_cycleLimit_le {x : Float32} (hx : ¬Unsigned x) : ¬cycleLimit ≤ x := by
  intro h
  have hle : UnpackedFloat.le cycleLimit.toModel.unpack x.toModel.unpack = true :=
    of_decide_eq_true h
  unfold Unsigned at hx
  cases hu : x.toModel.unpack with
  | infinity s | finite s =>
    rw [hu] at hle hx
    cases s with
    | negative => exact Bool.false_ne_true hle
    | positive => exact hx rfl
  | _ =>
    rw [hu] at hle
    exact Bool.false_ne_true hle

/-- A count that is negative or indeterminate is taken for zero. -/
theorem cycleCount_of_not_unsigned {x : Float32} (hx : ¬Unsigned x) : cycleCount x = pure 0 := by
  rw [cycleCount, if_neg (not_cycleLimit_le hx), roundNat_of_not_unsigned hx]
  rfl

theorem lesser_eq_min {x y : Float32} (hx : Unsigned x) (hy : Unsigned y) :
    Unsigned (lesser x y) ∧ magnitude (lesser x y) = min (magnitude x) (magnitude y) := by
  have hlt := lt_iff hx hy
  rw [lesser, isNaN_of_unsigned hy, Bool.or_false]
  by_cases hless : x < y
  · rw [if_pos (decide_eq_true hless), min_eq_left (hlt.mp hless).le]
    exact ⟨hx, rfl⟩
  · rw [if_neg (mt of_decide_eq_true hless), min_eq_right (not_lt.mp (hlt.not.mp hless))]
    exact ⟨hy, rfl⟩

/-- A clock and a ceiling that passed the check, as extended reals. -/
structure Timing.Checked (t : Timing) : Prop where
  clock_unsigned : Unsigned t.clock.hertz
  clock_ne_zero : magnitude t.clock.hertz ≠ 0
  clock_ne_top : magnitude t.clock.hertz ≠ ⊤
  ceiling_unsigned : Unsigned t.ceiling.hertz
  ceiling_ne_zero : magnitude t.ceiling.hertz ≠ 0
  ceiling_ne_top : magnitude t.ceiling.hertz ≠ ⊤
  ceiling_le : magnitude t.ceiling.hertz ≤ rounded (magnitude t.clock.hertz / 2)

theorem Frequency.of_isValid {f : Frequency} (h : f.isValid = true) :
    Unsigned f.hertz ∧ magnitude f.hertz ≠ 0 ∧ magnitude f.hertz ≠ ⊤ := by
  rw [isValid, Bool.and_eq_true, decide_eq_true_eq] at h
  exact ⟨(unsigned_of_pos h.2).1, (unsigned_of_pos h.2).2, magnitude_ne_top h.1⟩

theorem unsigned_two : Unsigned loopsPerStep.toFloat32 := rfl

theorem magnitude_two : magnitude loopsPerStep.toFloat32 = 2 := by
  change ENNReal.ofReal ((8388608 : ℕ) * 2 ^ (-22 : ℤ)) = 2
  norm_num

theorem two_mul {x : Float32} (hx : Unsigned x) :
    Unsigned (loopsPerStep.toFloat32 * x) ∧
      magnitude (loopsPerStep.toFloat32 * x) = rounded (2 * magnitude x) := by
  rw [← magnitude_two]
  exact mul unsigned_two hx (fun h => by simp [magnitude_two] at h)
    (fun _ => by simp [magnitude_two])

theorem div_two {x : Float32} (hx : Unsigned x) :
    Unsigned (x / loopsPerStep.toFloat32) ∧
      magnitude (x / loopsPerStep.toFloat32) = rounded (magnitude x / 2) := by
  rw [← magnitude_two]
  exact div hx unsigned_two (fun _ => by simp [magnitude_two]) (fun _ => by simp [magnitude_two])

namespace Timing

variable {t : Timing} {speed : Float32}

theorem checked_of_check (h : t.check = .ok ()) : t.Checked := by
  unfold check at h
  split at h
  · cases h
  next hclock =>
    split at h
    · cases h
    next hceiling =>
      rw [Bool.not_eq_true', Bool.not_eq_false] at hclock
      rw [Bool.or_eq_true, not_or, Bool.not_eq_true', Bool.not_eq_false, decide_eq_true_eq]
        at hceiling
      obtain ⟨hclock, hclockZero, hclockTop⟩ := Frequency.of_isValid hclock
      obtain ⟨hceilingValid, hhighest⟩ := hceiling
      obtain ⟨hceiling, hceilingZero, hceilingTop⟩ := Frequency.of_isValid hceilingValid
      obtain ⟨hunsigned, hvalue⟩ := div_two hclock
      refine ⟨hclock, hclockZero, hclockTop, hceiling, hceilingZero, hceilingTop, ?_⟩
      rw [← hvalue]
      exact not_lt.mp fun hlt => hhighest ((lt_iff hunsigned hceiling).mpr hlt)

/-- The speed of a travel is the slower of the speed and the ceiling; one rounding
doubles it and another divides the clock by it. -/
theorem Checked.toNat_travelDelay (ht : t.Checked) (hspeed : Unsigned speed) :
    (t.travelDelay speed).value.toNat =
      wholeCycles (rounded (magnitude t.clock.hertz /
        rounded (2 * min (magnitude speed) (magnitude t.ceiling.hertz)))) := by
  obtain ⟨hunsigned, hvalue⟩ := lesser_eq_min hspeed ht.ceiling_unsigned
  obtain ⟨htwice, htwiceValue⟩ := two_mul hunsigned
  obtain ⟨hquot, hquotValue⟩ := div ht.clock_unsigned htwice
    (fun h => absurd h ht.clock_ne_zero) (fun h => absurd h ht.clock_ne_top)
  rw [travelDelay, toNat_cycleCount hquot, hquotValue, htwiceValue, hvalue]

/-- Of two speeds, clipped to the ceiling, the slower one has the longer delay. -/
theorem Checked.travelDelay_le {slow fast : Float32} (ht : t.Checked) (hslow : Unsigned slow)
    (hfast : Unsigned fast)
    (h : min (magnitude slow) (magnitude t.ceiling.hertz) ≤
      min (magnitude fast) (magnitude t.ceiling.hertz)) :
    (t.travelDelay fast).value.toNat ≤ (t.travelDelay slow).value.toNat := by
  rw [ht.toNat_travelDelay hslow, ht.toNat_travelDelay hfast]
  apply wholeCycles_mono
  apply Binary.rounded_mono
  apply ENNReal.div_le_div_left
  apply Binary.rounded_mono
  gcongr

theorem Checked.travelDelay_ceiling_le (ht : t.Checked) (hspeed : Unsigned speed) :
    (t.travelDelay t.ceiling.hertz).value.toNat ≤ (t.travelDelay speed).value.toNat :=
  ht.travelDelay_le hspeed ht.ceiling_unsigned (by rw [min_self]; exact min_le_right _ _)

theorem phase_of_beq_squares (t : Timing) {m : Movement} (definingSteps : UInt32)
    (hsquares : (m.entrySpeed * m.entrySpeed == m.exitSpeed * m.exitSpeed) = true) :
    (t.phase m definingSteps).value =
      .travel (loopsPerStep * definingSteps).toUInt16 (t.travelDelay m.entrySpeed).value := by
  unfold phase
  simp only [hsquares, if_true]
  rfl

theorem phase_of_constant_speed (t : Timing) {m : Movement} (definingSteps : UInt32)
    (hsquare : Unsigned (m.entrySpeed * m.entrySpeed)) (hconstant : m.exitSpeed = m.entrySpeed) :
    (t.phase m definingSteps).value =
      .travel (loopsPerStep * definingSteps).toUInt16 (t.travelDelay m.entrySpeed).value :=
  t.phase_of_beq_squares definingSteps (by rw [hconstant]; exact beq_self hsquare)

end Timing

end

end PulseTrain
