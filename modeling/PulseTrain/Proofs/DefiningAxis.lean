import Mathlib.Tactic
import PulseTrain.Movement

/-!
# The defining axis

The defining steps of a movement are the maximum of the step counts without
their signs.  The lowest step count has no positive counterpart in 32 signed
bits, but its magnitude fits the unsigned result, so the maximum is exact for
every movement.
-/

namespace PulseTrain

theorem toNat_stepMagnitude (steps : Int32) :
    (stepMagnitude steps).toNat = steps.toInt.natAbs := by
  have hlow := steps.le_toInt
  have hhigh := steps.toInt_lt
  have hfits : steps.toInt.natAbs < UInt32.size := by
    rw [show UInt32.size = 2 ^ 32 from rfl]
    omega
  exact UInt32.toNat_ofNat_of_lt' hfits

theorem toNat_pos_of_ne_zero {n : UInt32} (h : n ≠ 0) : 0 < n.toNat :=
  Nat.pos_of_ne_zero fun hzero => h (UInt32.toNat_inj.mp hzero)

theorem natAbs_toInt_le (steps : Int32) : steps.toInt.natAbs ≤ 2 ^ 31 := by
  have hlow := steps.le_toInt
  have hhigh := steps.toInt_lt
  omega

private theorem toNat_max (a b : UInt32) : (max a b).toNat = max a.toNat b.toNat := by
  rw [show max a b = if a ≤ b then b else a from rfl]
  split
  next hle =>
    exact (max_eq_right (UInt32.le_iff_toNat_le.mp hle)).symm
  next hnotLe =>
    rw [UInt32.le_iff_toNat_le] at hnotLe
    exact (max_eq_left (by omega)).symm

private theorem foldl_max_le_iff (values : List Int32) (largest : UInt32) (bound : ℕ) :
    (values.foldl (fun largest s => max largest (stepMagnitude s)) largest).toNat ≤ bound ↔
      largest.toNat ≤ bound ∧ ∀ s ∈ values, s.toInt.natAbs ≤ bound := by
  induction values generalizing largest with
  | nil => simp
  | cons s rest ih =>
      rw [List.foldl_cons, ih, toNat_max, toNat_stepMagnitude, max_le_iff,
        List.forall_mem_cons]
      tauto

theorem largestMagnitude_le_iff (steps : Axes Int32) (bound : ℕ) :
    (largestMagnitude steps).toNat ≤ bound ↔
      ∀ axis : Axis, (steps.get axis).toInt.natAbs ≤ bound := by
  unfold largestMagnitude
  rw [← Vector.foldl_toList, foldl_max_le_iff]
  constructor
  · rintro ⟨-, hall⟩ axis
    apply hall
    rw [Vector.mem_toList_iff]
    exact Vector.getElem_mem axis.isLt
  · intro hall
    refine ⟨Nat.zero_le _, ?_⟩
    intro s hmem
    obtain ⟨i, hi, rfl⟩ := Vector.getElem_of_mem (Vector.mem_toList_iff.mp hmem)
    exact hall ⟨i, hi⟩

theorem natAbs_le_largestMagnitude (steps : Axes Int32) (axis : Axis) :
    (steps.get axis).toInt.natAbs ≤ (largestMagnitude steps).toNat :=
  (largestMagnitude_le_iff steps _).mp le_rfl axis

theorem exists_natAbs_eq_largestMagnitude (steps : Axes Int32) :
    ∃ axis : Axis, (steps.get axis).toInt.natAbs = (largestMagnitude steps).toNat := by
  by_contra hnone
  rw [not_exists] at hnone
  have hbelow : ∀ axis : Axis,
      (steps.get axis).toInt.natAbs ≤ (largestMagnitude steps).toNat - 1 := by
    intro axis
    have hle := natAbs_le_largestMagnitude steps axis
    have hne := hnone axis
    omega
  have hsmaller := (largestMagnitude_le_iff steps _).mpr hbelow
  have hfirst := natAbs_le_largestMagnitude steps 0
  have hne := hnone 0
  omega

theorem Movement.isGreatest_definingSteps (m : Movement) :
    IsGreatest (Set.range fun axis : Axis => (m.steps.get axis).toInt.natAbs)
      m.definingSteps.toNat := by
  constructor
  · exact exists_natAbs_eq_largestMagnitude m.steps
  · rintro _ ⟨axis, rfl⟩
    exact natAbs_le_largestMagnitude m.steps axis

end PulseTrain
