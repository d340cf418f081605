import PulseTrain.Proofs.Binary.Squares
import PulseTrain.Proofs.Plan.Refusal
import PulseTrain.Proofs.Synthesis

/-!
# The choice of the phase

A segment gets its phase from the squares of the speeds.  Rounding keeps the order of
squares, so a segment speeds up only towards a higher speed and slows down only towards
a lower one.  Unequal speeds may have equal squares, but only where squares are too
small or too large; in between the phase is that of the speeds themselves.
-/

namespace PulseTrain

open Single

/-- The order of the entry speed and the exit speed that the phase is for. -/
def Phase.order : Phase → Ordering
  | .accelerate _ => .lt
  | .travel .. => .eq
  | .decelerate _ => .gt

namespace Segment

variable (s : Segment)

theorem toNat_accelerationLoops :
    s.accelerationLoops.toNat = if s.phase.order = .lt then s.loops.toNat else 0 := by
  unfold accelerationLoops loops
  cases s.phase <;> rfl

theorem toNat_travelLoops :
    s.travelLoops.toNat = if s.phase.order = .eq then s.loops.toNat else 0 := by
  unfold travelLoops loops
  cases s.phase <;> rfl

theorem toNat_decelerationLoops :
    s.decelerationLoops.toNat = if s.phase.order = .gt then s.loops.toNat else 0 := by
  unfold decelerationLoops loops
  cases s.phase <;> rfl

end Segment

theorem Timing.order_synthesize (t : Timing) {m : Movement} (definingSteps : UInt32)
    (hentry : Unsigned (m.entrySpeed * m.entrySpeed))
    (hexit : Unsigned (m.exitSpeed * m.exitSpeed)) :
    (t.synthesize m definingSteps).value.phase.order =
      compare (magnitude (m.entrySpeed * m.entrySpeed))
        (magnitude (m.exitSpeed * m.exitSpeed)) := by
  have hbeq := beq_iff hentry hexit
  have hlt := lt_iff hentry hexit
  change (t.phase m definingSteps).value.order = _
  unfold phase
  simp only
  rcases lt_trichotomy (magnitude (m.entrySpeed * m.entrySpeed))
    (magnitude (m.exitSpeed * m.exitSpeed)) with hless | hequal | hgreater
  · rw [if_neg (hbeq.not.mpr hless.ne), if_pos (hlt.mpr hless), compare_lt_iff_lt.mpr hless]
    rfl
  · rw [if_pos (hbeq.mpr hequal), compare_eq_iff_eq.mpr hequal]
    rfl
  · rw [if_neg (hbeq.not.mpr hgreater.ne'), if_neg (hlt.not.mpr hgreater.not_gt),
      compare_gt_iff_gt.mpr hgreater]
    rfl

/-- A segment speeds up only to a higher speed and slows down only to a lower one.  If
squares neither underflow nor overflow, its phase and all of its loops are those of the
speeds themselves. -/
theorem Plan.phase_follows_speeds {t : Timing} {m : Movement} {p : Plan}
    (hplan : (t.plan m).value = .ok p) (hfits : m.definingSteps ≤ stepsPerSegment) :
    ∃ entry, p.segments = [entry] ∧
      (entry.value.phase.order = .lt → m.entrySpeed < m.exitSpeed) ∧
      (entry.value.phase.order = .gt → m.exitSpeed < m.entrySpeed) ∧
      ∀ v₀ v₁ : ℝ, HasValue m.entrySpeed v₀ → HasValue m.exitSpeed v₁ →
        SquareInRange v₀ → SquareInRange v₁ →
          (entry.value.phase.order = .lt ↔ m.entrySpeed < m.exitSpeed) ∧
          (entry.value.phase.order = .gt ↔ m.exitSpeed < m.entrySpeed) ∧
          (entry.value.phase.order = .eq ↔ m.entrySpeed == m.exitSpeed) ∧
          entry.value.accelerationLoops.toNat =
            (if m.entrySpeed < m.exitSpeed then 2 * m.definingSteps.toNat else 0) ∧
          entry.value.travelLoops.toNat =
            (if m.entrySpeed == m.exitSpeed then 2 * m.definingSteps.toNat else 0) ∧
          entry.value.decelerationLoops.toNat =
            (if m.exitSpeed < m.entrySpeed then 2 * m.definingSteps.toNat else 0) := by
  obtain ⟨hmoves, hspeeds, -, -⟩ := Timing.plan_eq_ok hplan
  obtain ⟨hentryValid, hexitValid⟩ := Movement.checkSpeeds_eq_ok_iff.mp hspeeds
  rw [Movement.speedIsValid_iff] at hentryValid hexitValid
  obtain ⟨v₀, hentry⟩ := exists_hasValue hentryValid.1
  obtain ⟨v₁, hexit⟩ := exists_hasValue hexitValid.1
  have horder := t.order_synthesize m.definingSteps hentry.square.1 hexit.square.1
  refine ⟨_, Plan.segments_of_fits hplan hfits, ?_, ?_, ?_⟩
  · intro haccelerate
    rw [horder, compare_lt_iff_lt] at haccelerate
    exact hentry.lt_of_magnitude_mul_self_lt hexit (hexit.nonneg hexitValid.2) haccelerate
  · intro hdecelerate
    rw [horder, compare_gt_iff_gt] at hdecelerate
    exact hexit.lt_of_magnitude_mul_self_lt hentry (hentry.nonneg hentryValid.2) hdecelerate
  · intro v₀ v₁ hentry hexit hrange₀ hrange₁
    rw [hentry.compare_mul_self hexit hrange₀ hrange₁] at horder
    have hless : (t.synthesize m m.definingSteps).value.phase.order = .lt ↔
        m.entrySpeed < m.exitSpeed := by
      rw [horder, compare_lt_iff_lt, hentry.lt_iff hexit]
    have hgreater : (t.synthesize m m.definingSteps).value.phase.order = .gt ↔
        m.exitSpeed < m.entrySpeed := by
      rw [horder, compare_gt_iff_gt, hexit.lt_iff hentry]
    have hequal : (t.synthesize m m.definingSteps).value.phase.order = .eq ↔
        m.entrySpeed == m.exitSpeed := by
      rw [horder, compare_eq_iff_eq, hentry.beq_iff hexit]
    have hloops : (t.synthesize m m.definingSteps).value.loops.toNat =
        2 * m.definingSteps.toNat :=
      (t.playsBack_synthesize (toNat_pos_of_ne_zero hmoves)
        (UInt32.le_iff_toNat_le.mp hfits)).loops
    refine ⟨hless, hgreater, hequal, ?_, ?_, ?_⟩
    · simp only [Segment.toNat_accelerationLoops, hless, hloops]
    · simp only [Segment.toNat_travelLoops, hequal, hloops]
    · simp only [Segment.toNat_decelerationLoops, hgreater, hloops]

/-- From the lowest speed in the range to the next one a segment speeds up. -/
theorem Plan.phase_follows_speeds_of_neighbours :
    ∃ (p : Plan) (entry : Logged Segment),
      (Timing.plan {} (.ofSteps [10] (Float32.ofBits 0x20000000) (Float32.ofBits 0x20000001)
        0)).value = .ok p ∧
      HasValue (Float32.ofBits 0x20000000) (8388608 * 2 ^ (-86 : ℤ)) ∧
      HasValue (Float32.ofBits 0x20000001) (8388609 * 2 ^ (-86 : ℤ)) ∧
      p.segments = [entry] ∧
      entry.value.accelerationLoops.toNat = 20 ∧ entry.value.travelLoops.toNat = 0 := by
  have hentry : HasValue (Float32.ofBits 0x20000000) (8388608 * 2 ^ (-86 : ℤ)) := by
    exact_mod_cast Binary.HasValue.finite .positive 8388608 (-86) (by norm_num)
  have hexit : HasValue (Float32.ofBits 0x20000001) (8388609 * 2 ^ (-86 : ℤ)) := by
    exact_mod_cast Binary.HasValue.finite .positive 8388609 (-86) (by norm_num)
  obtain ⟨p, hplan⟩ : ∃ p : Plan, (Timing.plan {} (.ofSteps [10] (Float32.ofBits 0x20000000)
    (Float32.ofBits 0x20000001) 0)).value = .ok p := ⟨_, rfl⟩
  obtain ⟨entry, hentries, -, -, hchoice⟩ := Plan.phase_follows_speeds hplan (by decide)
  obtain ⟨-, -, -, haccelerate, htravel, -⟩ := hchoice _ _ hentry hexit
    (.inr (by norm_num [Binary.value])) (.inr (by norm_num [Binary.value]))
  exact ⟨p, entry, hplan, hentry, hexit, hentries,
    haccelerate.trans (if_pos (by decide)), htravel.trans (if_neg (by decide))⟩

end PulseTrain
