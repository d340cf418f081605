import PulseTrain.Proofs.Plan.Pieces

/-!
# Every piece moves and fits

Let `n` be the defining steps of a movement.  With `n / 32767 + 1` pieces the
average of every axis stays below 32767 steps per piece, and rounding an average
up cannot pass a bound that it stays below.  The average of the defining axis is
at least one step as soon as there are two pieces, so rounding it down leaves a
step.  Signs are those of the movement, since no axis turns around.
-/

namespace PulseTrain

namespace Division.Covers

variable {m : Movement} {count k : ℕ} {piece : Division}

/-- An axis moves the way it was asked to move, or not at all in this piece. -/
theorem nonneg (hcovers : piece.Covers m count k) (hcount : 0 < count) {axis : Axis}
    (hsteps : 0 ≤ (m.steps.get axis).toInt) :
    0 ≤ (piece.movement.steps.get axis).toInt := by
  have hforward := exactPosition_le_succ hcount hsteps k
  rw [hcovers.steps axis]
  omega

theorem nonpos (hcovers : piece.Covers m count k) (hcount : 0 < count)
    (hsmall : count ≤ 2 ^ 31) {axis : Axis} (hsteps : (m.steps.get axis).toInt < 0) :
    (piece.movement.steps.get axis).toInt ≤ 0 := by
  have hbackward := exactPosition_succ_le hcount hsmall hsteps k
  rw [hcovers.steps axis]
  omega

theorem neg_iff_of_ne_zero (hcovers : piece.Covers m count k) (hcount : 0 < count)
    (hsmall : count ≤ 2 ^ 31) {axis : Axis}
    (hmoves : (piece.movement.steps.get axis).toInt ≠ 0) :
    (piece.movement.steps.get axis).toInt < 0 ↔ (m.steps.get axis).toInt < 0 := by
  rcases le_or_gt 0 (m.steps.get axis).toInt with hsteps | hsteps
  · have hforward := hcovers.nonneg hcount hsteps
    omega
  · have hbackward := hcovers.nonpos hcount hsmall hsteps
    omega

theorem natAbs_le (hcovers : piece.Covers m count k) (hcount : 0 < count)
    (hsmall : count ≤ 2 ^ 31) {axis : Axis} {bound : ℕ}
    (haverage : (m.steps.get axis).toInt.natAbs < bound * count) :
    (piece.movement.steps.get axis).toInt.natAbs ≤ bound := by
  have hupper : (m.steps.get axis).toInt < (bound : ℤ) * count := by
    have : ((bound * count : ℕ) : ℤ) = (bound : ℤ) * count := by push_cast; ring
    omega
  have hlower : -(bound : ℤ) * count ≤ (m.steps.get axis).toInt := by
    have : ((bound * count : ℕ) : ℤ) = -(-(bound : ℤ) * count) := by push_cast; ring
    omega
  have hmost := exactPosition_succ_sub_le k (exactShare_le hcount hsmall hupper)
  have hleast := le_exactPosition_succ_sub k (le_exactShare hcount hlower)
  have hsteps := hcovers.steps axis
  omega

theorem natAbs_pos (hcovers : piece.Covers m count k) (hcount : 0 < count)
    (hsmall : count ≤ 2 ^ 31) {axis : Axis}
    (haverage : count < (m.steps.get axis).toInt.natAbs) :
    0 < (piece.movement.steps.get axis).toInt.natAbs := by
  have hsteps := hcovers.steps axis
  rcases le_or_gt 0 (m.steps.get axis).toInt with hforward | hbackward
  · have hlower : (1 : ℤ) * count ≤ (m.steps.get axis).toInt := by omega
    have hleast := le_exactPosition_succ_sub k (le_exactShare hcount hlower)
    omega
  · have hupper : (m.steps.get axis).toInt < (-1 : ℤ) * count := by omega
    have hmost := exactPosition_succ_sub_le k (exactShare_le hcount hsmall hupper)
    omega

end Division.Covers

namespace Divisions

theorem exists_covers_of_mem {m : Movement} {definingSteps : UInt32} {division : Division}
    (hmem : division ∈ (ofMovement m definingSteps).toList) :
    ∃ k < (divisionCount definingSteps).toNat,
      division.Covers m (divisionCount definingSteps).toNat k := by
  obtain ⟨k, hget⟩ := List.mem_iff_getElem?.mp hmem
  refine ⟨k, ?_, covers_ofMovement hget⟩
  rw [← length_toList_ofMovement m definingSteps]
  exact (List.getElem?_eq_some_iff.mp hget).1

theorem definingSteps_le_of_mem {m : Movement} {division : Division}
    (hmem : division ∈ (ofMovement m m.definingSteps).toList) :
    division.definingSteps.toNat ≤ 32767 := by
  obtain ⟨k, -, hcovers⟩ := exists_covers_of_mem hmem
  rw [hcovers.definingSteps, largestMagnitude_le_iff]
  intro axis
  apply hcovers.natAbs_le (divisionCount_pos _) (divisionCount_le _)
  have hmost := natAbs_le_largestMagnitude m.steps axis
  rw [toNat_divisionCount]
  unfold Movement.definingSteps
  omega

theorem definingSteps_pos_of_mem {m : Movement} {division : Division}
    (hmoves : m.definingSteps ≠ 0)
    (hmem : division ∈ (ofMovement m m.definingSteps).toList) :
    0 < division.definingSteps.toNat := by
  obtain ⟨k, hk, hcovers⟩ := exists_covers_of_mem hmem
  obtain ⟨axis, haxis⟩ := exists_natAbs_eq_largestMagnitude m.steps
  have hdivision := natAbs_le_largestMagnitude division.movement.steps axis
  have hpos := toNat_pos_of_ne_zero hmoves
  have hcount := toNat_divisionCount m.definingSteps
  have hmoved : 0 < (division.movement.steps.get axis).toInt.natAbs := by
    by_cases hwhole : (divisionCount m.definingSteps).toNat = 1
    · -- A single division makes all steps.
      have hsteps := hcovers.steps axis
      obtain rfl : k = 0 := by omega
      rw [hwhole, exactPosition_single] at hsteps
      rw [hsteps, haxis]
      exact hpos
    · apply hcovers.natAbs_pos (divisionCount_pos _) (divisionCount_le _)
      unfold Movement.definingSteps at hcount hwhole hpos ⊢
      omega
  rw [hcovers.definingSteps]
  omega

end Divisions

namespace Movement

variable {m : Movement} {k : ℕ} {piece : Division}

theorem definingSteps_of_single_piece (hfits : m.definingSteps.toNat ≤ 32767)
    (hget : m.pieces[k]? = some piece) : piece.definingSteps = m.definingSteps := by
  have hcapacity : m.definingSteps ≤ stepsPerSegment := UInt32.le_iff_toNat_le.mpr hfits
  rw [pieces, if_pos hcapacity, List.getElem?_singleton] at hget
  split at hget
  next =>
    obtain rfl := Option.some.inj hget
    rfl
  next => cases hget

theorem definingSteps_le_of_piece (hget : m.pieces[k]? = some piece) :
    piece.definingSteps.toNat ≤ 32767 := by
  by_cases hfits : m.definingSteps.toNat ≤ 32767
  · rwa [definingSteps_of_single_piece hfits hget]
  · have hlong : ¬m.definingSteps ≤ stepsPerSegment := mt UInt32.le_iff_toNat_le.mp hfits
    rw [pieces, if_neg hlong] at hget
    exact Divisions.definingSteps_le_of_mem (List.mem_of_getElem? hget)

theorem definingSteps_pos_of_piece (hmoves : m.definingSteps ≠ 0)
    (hget : m.pieces[k]? = some piece) : 0 < piece.definingSteps.toNat := by
  by_cases hfits : m.definingSteps.toNat ≤ 32767
  · rw [definingSteps_of_single_piece hfits hget]
    exact toNat_pos_of_ne_zero hmoves
  · have hlong : ¬m.definingSteps ≤ stepsPerSegment := mt UInt32.le_iff_toNat_le.mp hfits
    rw [pieces, if_neg hlong] at hget
    exact Divisions.definingSteps_pos_of_mem hmoves (List.mem_of_getElem? hget)

end Movement

/-! ## The plan of an accepted movement -/

/-- A movement is accepted if some axis moves and both speeds are valid, and its
plan has its pieces still to play. -/
theorem Timing.plan_eq_ok {t : Timing} {m : Movement} {p : Plan}
    (hplan : (t.plan m).value = .ok p) :
    m.definingSteps ≠ 0 ∧ m.checkSpeeds = .ok () ∧ p.timing = t ∧
      p.pending.pieces = m.pieces := by
  unfold Timing.plan at hplan
  simp only at hplan
  split at hplan
  next => simp at hplan
  next hmoves =>
    split at hplan
    next => simp at hplan
    next hspeeds =>
      refine ⟨hmoves, hspeeds, ?_⟩
      split at hplan
      next hfits =>
        simp only [Logged.value_pure, Except.ok.injEq] at hplan
        subst p
        refine ⟨rfl, ?_⟩
        simp [Pending.pieces, Movement.pieces, hfits]
      next hlong =>
        simp only [Logged.value_bind, Logged.value_pure, Except.ok.injEq] at hplan
        subst p
        refine ⟨rfl, ?_⟩
        simp [Pending.pieces, Movement.pieces, hlong]

theorem Timing.plan_of_fits (t : Timing) {m : Movement} (hmoves : m.definingSteps ≠ 0)
    (hspeeds : m.checkSpeeds = .ok ()) (hfits : m.definingSteps ≤ stepsPerSegment) :
    (t.plan m).value = .ok ⟨t, .single (some ⟨m, m.definingSteps⟩)⟩ := by
  unfold Timing.plan
  simp only [if_neg hmoves, hspeeds, if_pos hfits, Logged.value_pure]

theorem Plan.segments_of_plan {t : Timing} {m : Movement} {p : Plan}
    (hplan : (t.plan m).value = .ok p) :
    p.segments = m.pieces.map fun piece =>
      t.synthesize piece.movement piece.definingSteps := by
  obtain ⟨hmoves, -, htiming, hpieces⟩ := Timing.plan_eq_ok hplan
  rw [Plan.segments_eq_map, htiming, hpieces]
  intro piece hmem hzero
  rw [hpieces] at hmem
  obtain ⟨k, hget⟩ := List.mem_iff_getElem?.mp hmem
  have hpositive := Movement.definingSteps_pos_of_piece hmoves hget
  rw [hzero] at hpositive
  exact absurd hpositive (by decide)

theorem Plan.segments_of_fits {t : Timing} {m : Movement} {p : Plan}
    (hplan : (t.plan m).value = .ok p) (hfits : m.definingSteps ≤ stepsPerSegment) :
    p.segments = [t.synthesize m m.definingSteps] := by
  have hpieces : m.pieces = [⟨m, m.definingSteps⟩] := if_pos hfits
  rw [Plan.segments_of_plan hplan, hpieces]
  rfl

end PulseTrain
