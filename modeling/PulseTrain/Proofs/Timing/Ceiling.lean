import PulseTrain.Proofs.Division.Speeds
import PulseTrain.Proofs.Plan.Refusal
import PulseTrain.Proofs.Timing.Delays

/-!
# The ceiling

A travel is clipped to the ceiling before its delay is rounded to whole cycles.  The
delay is rounded to nearest, so the delay of the ceiling itself may come out too
short.  Every other travel is at least as slow, and so this one delay decides whether
the ceiling is kept; where it is not, it is missed by half a cycle per loop at most.
-/

namespace PulseTrain

open Float.Model Single
open scoped ENNReal

/-- The loops of a step, at this delay, are no shorter than a step at the ceiling. -/
def Timing.KeepsCeiling (t : Timing) (delay : UInt32) : Prop :=
  magnitude t.clock.hertz ≤ (loopsPerStep.toNat * delay.toNat : ℕ) * magnitude t.ceiling.hertz

/-- Some segment of the plan travels with this delay. -/
def Plan.Travels (p : Plan) (delay : UInt32) : Prop :=
  ∃ entry ∈ p.segments, ∃ loops, entry.value.phase = .travel loops delay

namespace Timing

variable {t : Timing}

theorem travelDelay_of_phase {m : Movement} {definingSteps : UInt32} {loops : UInt16}
    {delay : UInt32} (h : (t.phase m definingSteps).value = .travel loops delay) :
    (t.travelDelay m.entrySpeed).value = delay := by
  unfold phase at h
  simp only at h
  split at h
  · exact (Phase.travel.inj h).2
  · split at h <;> cases h

theorem Checked.ceiling_le_clock (ht : t.Checked) :
    magnitude t.ceiling.hertz ≤ magnitude t.clock.hertz :=
  calc magnitude t.ceiling.hertz ≤ rounded (magnitude t.clock.hertz / 2) := ht.ceiling_le
    _ ≤ rounded (magnitude t.clock.hertz) := by
        apply Binary.rounded_mono
        exact ENNReal.div_le_of_le_mul (le_mul_of_one_le_right' (by norm_num))
    _ = magnitude t.clock.hertz := Binary.rounded_magnitude (stored t.clock.hertz)

theorem Checked.rounded_two_mul_ceiling (ht : t.Checked) :
    rounded (2 * magnitude t.ceiling.hertz) = 2 * magnitude t.ceiling.hertz := by
  apply Binary.rounded_two_mul (stored t.ceiling.hertz).canonical
  calc 2 * magnitude t.ceiling.hertz ≤ 2 * rounded (magnitude t.clock.hertz / 2) := by
        gcongr
        exact ht.ceiling_le
    _ < .ofReal (2 ^ Binary.endExponent .binary32) :=
        Binary.two_mul_rounded_half_lt (by decide) (stored t.clock.hertz) ht.clock_ne_top

theorem Checked.toNat_travelDelay_ceiling (ht : t.Checked) :
    (t.travelDelay t.ceiling.hertz).value.toNat =
      wholeCycles (rounded (magnitude t.clock.hertz / (2 * magnitude t.ceiling.hertz))) := by
  rw [ht.toNat_travelDelay ht.ceiling_unsigned, min_self, ht.rounded_two_mul_ceiling]

/-- Two loops at the ceiling take a cycle or more. -/
theorem Checked.half_le (ht : t.Checked) :
    1 / 2 ≤ magnitude t.clock.hertz / (2 * magnitude t.ceiling.hertz) := by
  have htwice : 2 * magnitude t.ceiling.hertz ≠ 0 := by simp [ht.ceiling_ne_zero]
  have htop : 2 * magnitude t.ceiling.hertz ≠ ⊤ := by simp [ENNReal.mul_eq_top, ht.ceiling_ne_top]
  have hone : (1 / 2 : ℝ≥0∞) * 2 = 1 := ENNReal.div_mul_cancel two_ne_zero ENNReal.ofNat_ne_top
  rw [ENNReal.le_div_iff_mul_le (.inl htwice) (.inl htop), ← mul_assoc, hone, one_mul]
  exact ht.ceiling_le_clock

/-- The delay of the ceiling is at most half a cycle too short, and one rounding in
single precision. -/
theorem Checked.le_travelDelay_ceiling (ht : t.Checked)
    (hclamped : (t.travelDelay t.ceiling.hertz).value ≠ 0xFFFFFFFF) :
    16777215 * magnitude t.clock.hertz ≤
      16777216 * ((2 * (t.travelDelay t.ceiling.hertz).value.toNat + 1) *
        magnitude t.ceiling.hertz) := by
  have htwice : 2 * magnitude t.ceiling.hertz ≠ 0 := by simp [ht.ceiling_ne_zero]
  have htop : 2 * magnitude t.ceiling.hertz ≠ ⊤ := by simp [ENNReal.mul_eq_top, ht.ceiling_ne_top]
  have hone : (1 / 2 : ℝ≥0∞) * 2 = 1 := ENNReal.div_mul_cancel two_ne_zero ENNReal.ofNat_ne_top
  set exact := magnitude t.clock.hertz / (2 * magnitude t.ceiling.hertz) with hexact
  have hdelay : (t.travelDelay t.ceiling.hertz).value.toNat = wholeCycles (rounded exact) :=
    ht.toNat_travelDelay_ceiling
  have hunclamped : wholeCycles (rounded exact) ≠ 4294967295 := by
    rw [← hdelay]
    exact fun h => hclamped (UInt32.toNat_inj.mp h)
  have hhalf : 1 / 2 ≤ exact := ht.half_le
  have hround : 16777215 * exact ≤ 16777216 * rounded exact := by
    have hnormal : ENNReal.ofReal (2 ^ (-126 : ℤ)) ≤ exact := by
      refine le_trans ?_ hhalf
      rw [← ENNReal.ofReal_one, ← ENNReal.ofReal_ofNat, ← ENNReal.ofReal_div_of_pos two_pos]
      exact ENNReal.ofReal_le_ofReal (by norm_num)
    exact_mod_cast Binary.mul_le_rounded (F := .binary32) hnormal
  have hcount : 16777215 * exact ≤ 16777216 * (wholeCycles (rounded exact) + 1 / 2) :=
    hround.trans (by gcongr; exact le_wholeCycles_add_half hunclamped)
  rw [hdelay]
  calc 16777215 * magnitude t.clock.hertz
      = 16777215 * exact * (2 * magnitude t.ceiling.hertz) := by
        rw [mul_assoc, hexact, ENNReal.div_mul_cancel htwice htop]
    _ ≤ 16777216 * (wholeCycles (rounded exact) + 1 / 2) * (2 * magnitude t.ceiling.hertz) := by
        gcongr ?_ * _
    _ = 16777216 * ((2 * wholeCycles (rounded exact) + 1 / 2 * 2) *
          magnitude t.ceiling.hertz) := by ring
    _ = 16777216 * ((2 * wholeCycles (rounded exact) + 1) * magnitude t.ceiling.hertz) := by
        rw [hone]

/-- Minus zero passes for a slow speed, but the clock divided by it is negative. -/
theorem Checked.travelDelay_neg_zero (ht : t.Checked) : (t.travelDelay (-0)).value = 0 := by
  obtain ⟨m, e, hm, hclock⟩ :=
    exists_finite ht.clock_unsigned ht.clock_ne_zero ht.clock_ne_top
  obtain ⟨m', e', hm', hceiling⟩ :=
    exists_finite ht.ceiling_unsigned ht.ceiling_ne_zero ht.ceiling_ne_top
  have hslow : -0 < t.ceiling.hertz := by
    have hlt : UnpackedFloat.lt (.zero .negative) t.ceiling.hertz.toModel.unpack = true := by
      rw [hceiling]
      rfl
    exact decide_eq_true hlt
  have hlesser : lesser (-0) t.ceiling.hertz = -0 := if_pos (by simp [hslow])
  have hquot : (t.clock.hertz / (loopsPerStep.toFloat32 * -0)).toModel.unpack =
      .infinity .negative := by
    change UnpackedFloat.unpack .binary32 (UnpackedFloat.pack .binary32 (UnpackedFloat.div .binary32
      t.clock.hertz.toModel.unpack (loopsPerStep.toFloat32 * -0).toModel.unpack)) = _
    rw [hclock]
    exact Binary.unpack_pack_infinity .negative
  have hnegative : ¬Unsigned (t.clock.hertz / (loopsPerStep.toFloat32 * -0)) := by
    unfold Unsigned
    rw [hquot]
    exact nofun
  rw [travelDelay, hlesser, cycleCount_of_not_unsigned hnegative, Logged.value_pure]

theorem Checked.travels_at_ceiling (ht : t.Checked) :
    ∃ p : Plan, (t.plan (.ofSteps [1] t.ceiling.hertz t.ceiling.hertz 0)).value = .ok p ∧
      p.Travels (t.travelDelay t.ceiling.hertz).value := by
  have hvalid : Movement.speedIsValid t.ceiling.hertz = true :=
    Movement.speedIsValid_iff.mpr ⟨isFinite_of_ne_top ht.ceiling_unsigned ht.ceiling_ne_top,
      not_lt_zero ht.ceiling_unsigned⟩
  obtain ⟨hsquare, -⟩ := mul ht.ceiling_unsigned ht.ceiling_unsigned
    (fun h => absurd h ht.ceiling_ne_zero) (fun h => absurd h ht.ceiling_ne_zero)
  generalize t.ceiling.hertz = speed at hvalid hsquare
  set m := Movement.ofSteps [1] speed speed 0
  have hsteps : m.definingSteps = 1 := by
    change largestMagnitude (Axes.ofList 0 [1]) = 1
    decide +kernel
  have hspeeds : m.checkSpeeds = .ok () :=
    Movement.checkSpeeds_eq_ok_iff.mpr ⟨hvalid, hvalid⟩
  have hplan := t.plan_of_fits (m := m) (by simp [hsteps]) hspeeds (by rw [hsteps]; decide)
  have hpieces : m.pieces = [⟨m, 1⟩] := by
    rw [Movement.pieces, hsteps]
    rfl
  have hphase := t.phase_of_constant_speed (m := m) 1 hsquare rfl
  refine ⟨_, hplan, t.synthesize m 1, ?_, 2, hphase⟩
  rw [Plan.segments_of_plan hplan, hpieces]
  exact List.mem_singleton_self _

end Timing

namespace Movement

variable {m : Movement}

theorem unsigned_entrySpeed (hspeeds : m.checkSpeeds = .ok ()) (hsign : m.entrySpeed ≠ -0) :
    Unsigned m.entrySpeed := by
  have hvalid := speedIsValid_iff.mp (checkSpeeds_eq_ok_iff.mp hspeeds).1
  exact unsigned_of_not_neg hvalid.1 hvalid.2 hsign

theorem unsigned_entrySpeed_of_piece {piece : Division} (hspeeds : m.checkSpeeds = .ok ())
    (hsign : m.entrySpeed ≠ -0) (hmem : piece ∈ m.pieces) :
    Unsigned piece.movement.entrySpeed := by
  have hentry := unsigned_entrySpeed hspeeds hsign
  unfold pieces at hmem
  split at hmem
  · obtain rfl := List.mem_singleton.mp hmem
    exact hentry
  · have hfirst : (Divisions.ofMovement m m.definingSteps).speed = Binary.widen m.entrySpeed := rfl
    refine Divisions.unsigned_entrySpeed (fun _ => ?_) hmem
    rw [hfirst]
    exact Binary.unsigned_widen hentry

end Movement

theorem Plan.Travels.exists_piece {t : Timing} {m : Movement} {p : Plan} {delay : UInt32}
    (htravels : p.Travels delay) (hplan : (t.plan m).value = .ok p) :
    ∃ piece ∈ m.pieces, (t.travelDelay piece.movement.entrySpeed).value = delay := by
  obtain ⟨entry, hmem, loops, hphase⟩ := htravels
  rw [Plan.segments_of_plan hplan, List.mem_map] at hmem
  obtain ⟨piece, hpiece, rfl⟩ := hmem
  exact ⟨piece, hpiece, Timing.travelDelay_of_phase hphase⟩

theorem Plan.Travels.exists_speed {t : Timing} {m : Movement} {p : Plan} {delay : UInt32}
    (htravels : p.Travels delay) (hplan : (t.plan m).value = .ok p) (hsign : m.entrySpeed ≠ -0) :
    ∃ speed, Unsigned speed ∧ (t.travelDelay speed).value = delay := by
  obtain ⟨-, hspeeds, -, -⟩ := Timing.plan_eq_ok hplan
  obtain ⟨piece, hpiece, hdelay⟩ := htravels.exists_piece hplan
  exact ⟨piece.movement.entrySpeed, Movement.unsigned_entrySpeed_of_piece hspeeds hsign hpiece,
    hdelay⟩

/-- Movements that do not start at minus zero keep the ceiling exactly if the delay of
the ceiling does, which is the shortest of all.  They are never more than half a cycle
per loop short of it, apart from one rounding in single precision.  Minus zero passes as
a speed and has no delay at all. -/
theorem Timing.ceiling_kept_iff {t : Timing} {shortest : UInt32} (hcheck : t.check = .ok ())
    (hshortest : (t.travelDelay t.ceiling.hertz).value = shortest) :
    shortest.toNat =
        wholeCycles (rounded (magnitude t.clock.hertz / (2 * magnitude t.ceiling.hertz))) ∧
      ((∀ (m : Movement) (p : Plan), (t.plan m).value = .ok p → m.entrySpeed ≠ -0 →
        ∀ delay, p.Travels delay → t.KeepsCeiling delay) ↔ t.KeepsCeiling shortest) ∧
      (∀ (m : Movement) (p : Plan), (t.plan m).value = .ok p → m.entrySpeed ≠ -0 →
        ∀ delay, p.Travels delay → shortest ≤ delay ∧
          (shortest ≠ 0xFFFFFFFF → 16777215 * magnitude t.clock.hertz ≤
            16777216 * ((2 * delay.toNat + 1) * magnitude t.ceiling.hertz))) ∧
      (t.travelDelay (-0)).value = 0 ∧ ¬t.KeepsCeiling 0 := by
  have ht := checked_of_check hcheck
  have hleast : ∀ (m : Movement) (p : Plan), (t.plan m).value = .ok p → m.entrySpeed ≠ -0 →
      ∀ delay, p.Travels delay → shortest ≤ delay := by
    intro m p hplan hsign delay htravels
    obtain ⟨speed, hspeed, rfl⟩ := htravels.exists_speed hplan hsign
    rw [← hshortest, UInt32.le_iff_toNat_le]
    exact ht.travelDelay_ceiling_le hspeed
  refine ⟨?_, ⟨fun hkept => ?_, fun hkept m p hplan hsign delay htravels => ?_⟩, ?_,
    ht.travelDelay_neg_zero, ?_⟩
  · rw [← hshortest]
    exact ht.toNat_travelDelay_ceiling
  · obtain ⟨p, hplan, htravels⟩ := ht.travels_at_ceiling
    rw [hshortest] at htravels
    exact hkept _ p hplan (ne_neg_zero ht.ceiling_unsigned) shortest htravels
  · have hle := UInt32.le_iff_toNat_le.mp (hleast m p hplan hsign delay htravels)
    unfold KeepsCeiling at hkept ⊢
    refine hkept.trans ?_
    gcongr
  · intro m p hplan hsign delay htravels
    have hle := hleast m p hplan hsign delay htravels
    refine ⟨hle, fun hclamped => ?_⟩
    have hbound := ht.le_travelDelay_ceiling (by rwa [hshortest])
    rw [hshortest] at hbound
    have := UInt32.le_iff_toNat_le.mp hle
    refine hbound.trans ?_
    gcongr
  · unfold KeepsCeiling
    simpa using ht.clock_ne_zero

theorem magnitude_defaultClock : magnitude 200000000 = 200000000 := by
  change ENNReal.ofReal ((12500000 : ℕ) * 2 ^ (4 : ℤ)) = _
  norm_num

/-- The default ceiling divides half of the default clock and is kept. -/
theorem Timing.ceiling_kept_by_default :
    Timing.check {} = .ok () ∧ (Timing.travelDelay {} 1000000).value = 100 ∧
      ∀ (m : Movement) (p : Plan), (Timing.plan {} m).value = .ok p → m.entrySpeed ≠ -0 →
        ∀ delay, p.Travels delay → Timing.KeepsCeiling {} delay := by
  have hcheck : Timing.check {} = .ok () := rfl
  have hshortest : (Timing.travelDelay {} 1000000).value = 100 := by decide +kernel
  have hceiling : magnitude 1000000 = 1000000 := by
    change ENNReal.ofReal ((16000000 : ℕ) * 2 ^ (-4 : ℤ)) = _
    norm_num
  have hkept : Timing.KeepsCeiling {} 100 := by
    change magnitude 200000000 ≤ (2 * 100 : ℕ) * magnitude 1000000
    rw [magnitude_defaultClock, hceiling]
    norm_num
  exact ⟨hcheck, hshortest, (Timing.ceiling_kept_iff hcheck hshortest).2.1.mpr hkept⟩

/-- A ceiling of 300 kHz on the default clock asks for 333 1/3 cycles and gets 333. -/
theorem Timing.ceiling_exceeded :
    ∃ p : Plan, Timing.check ⟨⟨200000000⟩, ⟨300000⟩⟩ = .ok () ∧
      (Timing.plan ⟨⟨200000000⟩, ⟨300000⟩⟩ (.ofSteps [100] 300000 300000 0)).value = .ok p ∧
      p.Travels 333 ∧ ¬Timing.KeepsCeiling ⟨⟨200000000⟩, ⟨300000⟩⟩ 333 := by
  obtain ⟨p, hplan⟩ : ∃ p : Plan,
      (Timing.plan ⟨⟨200000000⟩, ⟨300000⟩⟩ (.ofSteps [100] 300000 300000 0)).value = .ok p :=
    ⟨_, rfl⟩
  have hpieces : (Movement.ofSteps [100] 300000 300000 0).pieces =
      [⟨.ofSteps [100] 300000 300000 0, 100⟩] := rfl
  have hceiling : magnitude 300000 = 300000 := by
    change ENNReal.ofReal ((9600000 : ℕ) * 2 ^ (-5 : ℤ)) = _
    norm_num
  refine ⟨p, rfl, hplan, ⟨Timing.synthesize ⟨⟨200000000⟩, ⟨300000⟩⟩
    (.ofSteps [100] 300000 300000 0) 100, ?_, 200, by decide +kernel⟩, ?_⟩
  · rw [Plan.segments_of_plan hplan, hpieces]
    exact List.mem_singleton_self _
  · change ¬magnitude 200000000 ≤ (2 * 333 : ℕ) * magnitude 300000
    rw [magnitude_defaultClock, hceiling]
    norm_num

end PulseTrain
