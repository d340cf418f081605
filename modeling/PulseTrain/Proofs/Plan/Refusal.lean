import PulseTrain.Proofs.Plan.Capacity

/-!
# Movements that are turned away

A movement gets a plan unless no axis moves or one of its speeds is not valid.
Steps are looked at before speeds and the entry speed before the exit speed, so
every refused movement is refused for exactly one fault.
-/

namespace PulseTrain

namespace Movement

variable {m : Movement} {fault : Fault}

/-- A speed that no movement may have. -/
def SpeedFaulty (speed : Float32) : Prop := speed.isFinite = false ∨ speed < 0

theorem speedIsValid_eq_false_iff {speed : Float32} :
    speedIsValid speed = false ↔ SpeedFaulty speed := by
  unfold speedIsValid SpeedFaulty
  rw [Bool.and_eq_false_iff, Bool.not_eq_false', decide_eq_true_eq]

theorem speedIsValid_iff {speed : Float32} :
    speedIsValid speed = true ↔ speed.isFinite = true ∧ ¬speed < 0 := by
  simp [speedIsValid]

theorem definingSteps_eq_zero_iff (m : Movement) :
    m.definingSteps = 0 ↔ ∀ axis : Axis, m.steps.get axis = 0 := by
  have hzero : m.definingSteps = 0 ↔ m.definingSteps.toNat ≤ 0 := by
    rw [Nat.le_zero, ← UInt32.toNat_zero, UInt32.toNat_inj]
  rw [hzero, definingSteps, largestMagnitude_le_iff]
  refine forall_congr' fun axis => ?_
  rw [Nat.le_zero, Int.natAbs_eq_zero, ← Int32.toInt_zero, Int32.toInt_inj]

theorem checkSpeeds_eq_error_iff :
    m.checkSpeeds = .error fault ↔
      SpeedFaulty m.entrySpeed ∧ fault = .motion (.speed m.entrySpeed) ∨
        ¬SpeedFaulty m.entrySpeed ∧ SpeedFaulty m.exitSpeed ∧
          fault = .motion (.speed m.exitSpeed) := by
  unfold checkSpeeds
  rw [← speedIsValid_eq_false_iff, ← speedIsValid_eq_false_iff]
  cases hentry : speedIsValid m.entrySpeed with
  | false => simp [hentry, Eq.comm (a := fault)]
  | true =>
      cases hexit : speedIsValid m.exitSpeed <;> simp [hentry, hexit, Eq.comm (a := fault)]

theorem checkSpeeds_eq_ok_iff :
    m.checkSpeeds = .ok () ↔
      speedIsValid m.entrySpeed = true ∧ speedIsValid m.exitSpeed = true := by
  unfold checkSpeeds
  cases hentry : speedIsValid m.entrySpeed with
  | false => simp [hentry]
  | true => cases hexit : speedIsValid m.exitSpeed <;> simp [hentry, hexit]

end Movement

theorem Timing.plan_eq_error_iff {t : Timing} {m : Movement} {fault : Fault} :
    (t.plan m).value = .error fault ↔
      (∀ axis : Axis, m.steps.get axis = 0) ∧ fault = .motion .zeroLength ∨
        (∃ axis : Axis, m.steps.get axis ≠ 0) ∧ m.checkSpeeds = .error fault := by
  rw [← not_forall, ← m.definingSteps_eq_zero_iff]
  unfold plan
  by_cases hzero : m.definingSteps = 0
  · simp [hzero, Eq.comm (a := fault)]
  · cases hspeeds : m.checkSpeeds with
    | error refusal => simp [hzero]
    | ok => by_cases hfits : m.definingSteps ≤ stepsPerSegment <;> simp [hzero, hfits]

end PulseTrain
