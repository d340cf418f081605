import PulseTrain.Proofs.DefiningAxis
import PulseTrain.Proofs.Division.ExactShare

/-!
# Positions during a division

The running sums of a divided movement are kept in 64 signed bits and its
positions in 32.  Neither overflows, for any steps and any number of divisions,
so the words are the integers of `PulseTrain.Proofs.Division.ExactShare`.  The
invariant `Divisions.DrawnFrom` says so for the state after `k` divisions, and
every division that is drawn makes the steps between two successive positions.
-/

namespace PulseTrain

/-! ## Exact words -/

theorem toNat_divisionCount (definingSteps : UInt32) :
    (divisionCount definingSteps).toNat = definingSteps.toNat / 32767 + 1 := by
  have hbound := definingSteps.toNat_lt
  unfold divisionCount stepsPerSegment
  rw [UInt32.toNat_add, UInt32.toNat_div]
  simp only [UInt32.reduceToNat]
  omega

theorem divisionCount_pos (definingSteps : UInt32) :
    0 < (divisionCount definingSteps).toNat := by
  rw [toNat_divisionCount]
  omega

theorem divisionCount_le (definingSteps : UInt32) :
    (divisionCount definingSteps).toNat ≤ 2 ^ 31 := by
  have hbound := definingSteps.toNat_lt
  rw [toNat_divisionCount]
  omega

theorem toInt_toInt64_shiftLeft (steps : Int32) :
    (steps.toInt64 <<< (32 : Int64)).toInt = steps.toInt * 2 ^ 32 := by
  have hlow := steps.le_toInt
  have hhigh := steps.toInt_lt
  have hshift : (steps.toInt64 <<< (32 : Int64)).toInt =
      (steps.toInt64.toBitVec <<< 32).toInt := rfl
  have hunit : (BitVec.twoPow 64 32).toInt = 2 ^ 32 := by decide
  rw [hshift, BitVec.shiftLeft_eq_mul_twoPow, BitVec.toInt_mul, hunit,
    Int64.toInt_toBitVec, Int32.toInt_toInt64]
  exact Int.bmod_eq_of_le (by omega) (by omega)

theorem toInt_toInt64_of_count (count : UInt32) :
    count.toUInt64.toInt64.toInt = count.toNat := by
  have hbound := count.toNat_lt
  have hword : count.toUInt64.toInt64.toInt = count.toUInt64.toBitVec.toInt := rfl
  rw [hword, BitVec.toInt_eq_toNat_of_lt]
  · simp
  · simp only [UInt64.toNat_toBitVec, UInt32.toNat_toUInt64]
    omega

theorem toInt_shiftLeft_div (steps : Int32) (count : UInt32) :
    ((steps.toInt64 <<< (32 : Int64)) / count.toUInt64.toInt64).toInt =
      (steps.toInt * 2 ^ 32).tdiv count.toNat := by
  have hdivisor : count.toUInt64.toInt64 ≠ -1 := by
    intro hminus
    have hvalue := congrArg Int64.toInt hminus
    rw [toInt_toInt64_of_count] at hvalue
    have hone : (-1 : Int64).toInt = -1 := rfl
    omega
  rw [Int64.toInt_div_of_ne_right _ _ hdivisor, toInt_toInt64_shiftLeft,
    toInt_toInt64_of_count]

theorem toInt_share (steps : Int32) {count : UInt32}
    (hcount : 0 < count.toNat) (hsmall : count.toNat ≤ 2 ^ 31) :
    (share steps count).toInt = exactShare steps.toInt count.toNat := by
  have hbounds := mul_exactShare_bounds hcount hsmall steps.le_toInt steps.toInt_lt
    (k := 1) (by omega)
  unfold share
  rw [Int64.toInt_add, toInt_shiftLeft_div, Int64.toInt_one]
  unfold exactShare at hbounds ⊢
  exact Int.bmod_eq_of_le (by omega) (by omega)

theorem toInt_shiftRight (position : Int64) :
    (position >>> (32 : Int64)).toInt = position.toInt / 2 ^ 32 := by
  have hshift : (position >>> (32 : Int64)).toInt =
      (position.toBitVec.sshiftRight 32).toInt := rfl
  rw [hshift, BitVec.toInt_sshiftRight, Int.shiftRight_eq_div_pow, Int64.toInt_toBitVec]
  push_cast
  rfl

theorem toInt_wholeSteps (position : Int64) :
    (wholeSteps position).toInt = position.toInt / 2 ^ 32 := by
  have hlow := position.le_toInt
  have hhigh := position.toInt_lt
  unfold wholeSteps
  rw [Int64.toInt_toInt32, toInt_shiftRight]
  exact Int.bmod_eq_of_le (by omega) (by omega)

/-! ## The state after some divisions -/

namespace Divisions

/-- What is left of the divisions of `m` after the first `k`. -/
structure DrawnFrom (m : Movement) (definingSteps : UInt32) (k : ℕ) (d : Divisions) :
    Prop where
  shares : d.shares = m.steps.map (share · (divisionCount definingSteps))
  progress : ∀ axis : Axis, (d.progress.get axis).toInt =
    k * exactShare (m.steps.get axis).toInt (divisionCount definingSteps).toNat
  position : ∀ axis : Axis, (d.position.get axis).toInt =
    exactPosition (m.steps.get axis).toInt (divisionCount definingSteps).toNat k
  outputs : d.outputs = m.outputs
  remaining : d.remaining.toNat + k = (divisionCount definingSteps).toNat

theorem drawnFrom_ofMovement (m : Movement) (definingSteps : UInt32) :
    DrawnFrom m definingSteps 0 (ofMovement m definingSteps) := by
  constructor
  · rfl
  · intro axis
    simp [ofMovement]
  · intro axis
    simp [ofMovement]
  · rfl
  · simp [ofMovement]

end Divisions

/-- The division makes the steps between the positions `k` and `k + 1` on the way
of `m`, which is covered in `count` divisions. -/
structure Division.Covers (m : Movement) (count k : ℕ) (division : Division) : Prop where
  steps : ∀ axis : Axis, (division.movement.steps.get axis).toInt =
    exactPosition (m.steps.get axis).toInt count (k + 1) -
      exactPosition (m.steps.get axis).toInt count k
  definingSteps : division.definingSteps = largestMagnitude division.movement.steps
  outputs : division.movement.outputs = m.outputs

theorem exactPosition_sub_bounds (steps : Int32) {count : ℕ} (hcount : 0 < count)
    (hsmall : count ≤ 2 ^ 31) {k : ℕ} (hk : k < count) :
    -2 ^ 31 ≤ exactPosition steps.toInt count (k + 1) - exactPosition steps.toInt count k ∧
      exactPosition steps.toInt count (k + 1) - exactPosition steps.toInt count k < 2 ^ 31 := by
  have hlow := steps.le_toInt
  have hhigh := steps.toInt_lt
  rcases le_or_gt 0 steps.toInt with hsteps | hsteps
  · have hbefore := exactPosition_mem_of_nonneg hcount hsmall hsteps hk.le
    have hafter := exactPosition_mem_of_nonneg hcount hsmall hsteps (k := k + 1) hk
    omega
  · have hbefore := exactPosition_mem_of_neg hcount hsmall hsteps hk.le
    have hafter := exactPosition_mem_of_neg hcount hsmall hsteps (k := k + 1) hk
    have hturn := exactPosition_succ_le hcount hsmall hsteps k
    omega

namespace Divisions

theorem toNat_remaining_next? {d rest : Divisions} {division : Division}
    (h : d.next? = some (division, rest)) : rest.remaining.toNat + 1 = d.remaining.toNat := by
  have hlength := congrArg List.length (toList_of_next?_eq_some h)
  rw [List.length_cons, length_toList, length_toList] at hlength
  exact hlength.symm

theorem DrawnFrom.next {m : Movement} {definingSteps : UInt32} {k : ℕ} {d rest : Divisions}
    {division : Division} (hdrawn : DrawnFrom m definingSteps k d)
    (hnext : d.next? = some (division, rest)) :
    DrawnFrom m definingSteps (k + 1) rest ∧
      division.Covers m (divisionCount definingSteps).toNat k := by
  have hcount := divisionCount_pos definingSteps
  have hsmall := divisionCount_le definingSteps
  obtain ⟨hne, -⟩ := remaining_next? hnext
  have hremaining := toNat_remaining_next? hnext
  have htotal := hdrawn.remaining
  have hk : k < (divisionCount definingSteps).toNat := by omega
  -- One more share stays within 64 bits, so the words of the new state are exact.
  have hprogress : ∀ axis : Axis,
      (d.progress.get axis + d.shares.get axis).toInt =
        ((k + 1 : ℕ) : ℤ) *
          exactShare (m.steps.get axis).toInt (divisionCount definingSteps).toNat := by
    intro axis
    have hbounds := mul_exactShare_bounds hcount hsmall (m.steps.get axis).le_toInt
      (m.steps.get axis).toInt_lt (k := k + 1) hk
    rw [succ_mul_exactShare] at hbounds ⊢
    rw [Int64.toInt_add, hdrawn.progress axis, hdrawn.shares, Axes.get_map,
      toInt_share _ hcount hsmall]
    exact Int.bmod_eq_of_le (by omega) (by omega)
  have hposition : ∀ axis : Axis,
      (wholeSteps (d.progress.get axis + d.shares.get axis)).toInt =
        exactPosition (m.steps.get axis).toInt (divisionCount definingSteps).toNat (k + 1) := by
    intro axis
    rw [toInt_wholeSteps, hprogress]
    rfl
  unfold next? at hnext
  rw [if_neg hne] at hnext
  simp only [Option.some.injEq, Prod.mk.injEq] at hnext
  obtain ⟨rfl, rfl⟩ := hnext
  refine ⟨⟨hdrawn.shares, ?_, ?_, hdrawn.outputs, ?_⟩, ⟨?_, rfl, hdrawn.outputs⟩⟩
  · intro axis
    rw [Axes.get_zipWith]
    exact hprogress axis
  · intro axis
    rw [Axes.get_map, Axes.get_zipWith]
    exact hposition axis
  · simp only at hremaining ⊢
    omega
  · intro axis
    have hbounds := exactPosition_sub_bounds (m.steps.get axis) hcount hsmall hk
    rw [Axes.get_zipWith, Axes.get_map, Axes.get_zipWith, Int32.toInt_sub,
      hposition, hdrawn.position]
    exact Int.bmod_eq_of_le (by omega) (by omega)

theorem DrawnFrom.covers_getElem? {m : Movement} {definingSteps : UInt32} {k j : ℕ}
    {d : Divisions} {division : Division} (hdrawn : DrawnFrom m definingSteps k d)
    (hget : d.toList[j]? = some division) :
    division.Covers m (divisionCount definingSteps).toNat (k + j) := by
  induction j generalizing k d with
  | zero =>
      cases hnext : d.next? with
      | none => simp [toList_of_next?_eq_none hnext] at hget
      | some drawn =>
          obtain ⟨first, rest⟩ := drawn
          rw [toList_of_next?_eq_some hnext] at hget
          obtain rfl : first = division := by simpa using hget
          exact (hdrawn.next hnext).2
  | succ j ih =>
      cases hnext : d.next? with
      | none => simp [toList_of_next?_eq_none hnext] at hget
      | some drawn =>
          obtain ⟨first, rest⟩ := drawn
          rw [toList_of_next?_eq_some hnext, List.getElem?_cons_succ] at hget
          have hcovers := ih (hdrawn.next hnext).1 hget
          rwa [show k + 1 + j = k + (j + 1) by omega] at hcovers

theorem length_toList_ofMovement (m : Movement) (definingSteps : UInt32) :
    (ofMovement m definingSteps).toList.length = (divisionCount definingSteps).toNat := by
  rw [length_toList]
  rfl

theorem covers_ofMovement {m : Movement} {definingSteps : UInt32} {k : ℕ}
    {division : Division}
    (hget : (ofMovement m definingSteps).toList[k]? = some division) :
    division.Covers m (divisionCount definingSteps).toNat k := by
  have hcovers := (drawnFrom_ofMovement m definingSteps).covers_getElem? hget
  rwa [Nat.zero_add] at hcovers

end Divisions

end PulseTrain
