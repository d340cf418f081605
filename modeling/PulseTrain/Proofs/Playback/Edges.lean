import Mathlib.Tactic
import PulseTrain.Playback

/-!
# Edges of the step lines

After `k` loops the accumulator of an axis with fraction `f` holds `k * f`
without the multiples of `2 ^ 32`, and its line shows whether the whole part of
`k * f / 2 ^ 31` is odd.  A fraction of at most one half of the accumulator
moves that whole part by at most one per loop.  The line then changes exactly
when the whole part does, so every second change is a step.

`Playback.After` states this for the state after `k` loops.  It is kept by each
loop, and the step counts of a whole run follow from it.
-/

namespace PulseTrain

/-- How often the line of an axis with the given fraction changes in the first
`k` loops, for a fraction that changes it at most once per loop. -/
def lineChanges (fraction : UInt32) (k : ℕ) : ℕ := k * fraction.toNat / 2 ^ 31

/-- Steps in the first `k` loops.  A line that starts low rises first. -/
def stepsAfter (fraction : UInt32) (k : ℕ) : ℕ := (lineChanges fraction k + 1) / 2

theorem lineChanges_zero (fraction : UInt32) : lineChanges fraction 0 = 0 := by
  simp [lineChanges]

theorem stepsAfter_zero (fraction : UInt32) : stepsAfter fraction 0 = 0 := by
  simp [stepsAfter, lineChanges_zero]

/-- A line rises where the number of its changes becomes odd. -/
theorem stepsAfter_succ {fraction : UInt32} (hfraction : fraction.toNat ≤ 2 ^ 31) (k : ℕ) :
    stepsAfter fraction (k + 1) = stepsAfter fraction k +
      if lineChanges fraction (k + 1) % 2 = 1 ∧ lineChanges fraction k % 2 = 0
        then 1 else 0 := by
  have hsum : (k + 1) * fraction.toNat = k * fraction.toNat + fraction.toNat := by ring
  unfold stepsAfter lineChanges
  rw [hsum]
  split <;> omega

namespace Playback

/-- The playback of `s` after its first `k` loops. -/
structure After (s : Segment) (k : ℕ) (p : Playback) : Prop where
  segment : p.segment = s
  loop : p.loop = k
  accumulators : ∀ axis : Axis, (p.accumulators.get axis).toNat =
    k * (s.fractions.get axis).toNat % 2 ^ 32
  levels : ∀ axis : Axis, p.levels.contains axis =
    decide (lineChanges (s.fractions.get axis) k % 2 = 1)

theorem after_ofSegment (s : Segment) : After s 0 (ofSegment s) := by
  constructor
  · rfl
  · rfl
  · intro axis
    simp [ofSegment]
  · intro axis
    simp [ofSegment, AxisMask.contains, lineChanges_zero]

/-- The top bit of an accumulator tells the parity of the whole part. -/
theorem contains_highLines {accumulators : Axes UInt32} {fraction : UInt32} {k : ℕ}
    {axis : Axis}
    (haccumulator : (accumulators.get axis).toNat = k * fraction.toNat % 2 ^ 32) :
    (highLines accumulators).contains axis = decide (lineChanges fraction k % 2 = 1) := by
  have hhalf : (0x80000000 : UInt32).toNat = 2 ^ 31 := rfl
  unfold highLines lineChanges
  rw [AxisMask.contains_ofAxes, Axes.get_map, decide_eq_decide,
    UInt32.le_iff_toNat_le, hhalf, haccumulator]
  omega

theorem After.advance {s : Segment} {k : ℕ} {p next : Playback} {rising : AxisMask}
    (hafter : After s k p) (hadvance : p.advance? = some (rising, next)) :
    k < s.loops.toNat ∧ After s (k + 1) next ∧
      ∀ axis : Axis, rising.contains axis =
        decide (lineChanges (s.fractions.get axis) (k + 1) % 2 = 1 ∧
          lineChanges (s.fractions.get axis) k % 2 = 0) := by
  have hsegment := hafter.segment
  have hsum : ∀ axis : Axis, (p.nextAccumulators.get axis).toNat =
      (k + 1) * (s.fractions.get axis).toNat % 2 ^ 32 := by
    intro axis
    unfold nextAccumulators
    rw [Axes.get_zipWith, UInt32.toNat_add, hafter.accumulators axis, hsegment,
      Nat.mod_add_mod, Nat.add_mul, Nat.one_mul]
  have hlevels : ∀ axis : Axis, (highLines p.nextAccumulators).contains axis =
      decide (lineChanges (s.fractions.get axis) (k + 1) % 2 = 1) :=
    fun axis => contains_highLines (hsum axis)
  unfold advance? at hadvance
  split at hadvance
  next => cases hadvance
  next hrunning =>
    simp only [Option.some.injEq, Prod.mk.injEq] at hadvance
    obtain ⟨rfl, rfl⟩ := hadvance
    refine ⟨?_, ⟨hsegment, ?_, hsum, hlevels⟩, ?_⟩
    · simpa [isComplete, total, hsegment, hafter.loop] using hrunning
    · simp [hafter.loop]
    · intro axis
      rw [AxisMask.contains_and, AxisMask.contains_not, hlevels axis,
        hafter.levels axis, ← decide_not, ← Bool.decide_and, decide_eq_decide]
      omega

theorem advance?_eq_none_iff {p : Playback} : p.advance? = none ↔ p.total ≤ p.loop := by
  unfold advance?
  split
  next hcomplete => simpa [isComplete] using hcomplete
  next hrunning => simpa [isComplete] using hrunning

/-- A playback refuses to go on when all loops of its segment have been run. -/
theorem After.advance?_eq_none_iff {s : Segment} {k : ℕ} {p : Playback} (hafter : After s k p) :
    p.advance? = none ↔ s.loops.toNat ≤ k := by
  rw [Playback.advance?_eq_none_iff, hafter.loop, total, hafter.segment]

@[simp] theorem get_countRising (rising : AxisMask) (pulses : Axes ℕ) (axis : Axis) :
    (countRising rising pulses).get axis =
      pulses.get axis + if rising.contains axis then 1 else 0 := by
  unfold countRising
  rw [Axes.get_zipWith, AxisMask.get_toAxes]
  split <;> rfl

theorem After.get_runFrom {s : Segment} {k : ℕ} {p : Playback} {axis : Axis}
    (hafter : After s k p) (hk : k ≤ s.loops.toNat)
    (hfraction : (s.fractions.get axis).toNat ≤ 2 ^ 31) (pulses : Axes ℕ) :
    (p.runFrom pulses).1.get axis + stepsAfter (s.fractions.get axis) k =
      pulses.get axis + stepsAfter (s.fractions.get axis) s.loops.toNat := by
  induction hmissing : s.loops.toNat - k generalizing k p pulses with
  | zero =>
      have hend : k = s.loops.toNat := by omega
      have hstop : p.advance? = none := hafter.advance?_eq_none_iff.mpr hend.ge
      rw [runFrom_of_advance?_eq_none _ hstop, hend]
  | succ missing ih =>
      cases hadvance : p.advance? with
      | none =>
          have := hafter.advance?_eq_none_iff.mp hadvance
          omega
      | some advanced =>
          obtain ⟨rising, next⟩ := advanced
          obtain ⟨hrunning, hnext, hrising⟩ := hafter.advance hadvance
          have hrest := ih hnext hrunning (countRising rising pulses) (by omega)
          rw [get_countRising, hrising axis, stepsAfter_succ hfraction] at hrest
          simp only [decide_eq_true_eq] at hrest
          rw [runFrom_of_advance?_eq_some _ hadvance]
          omega

end Playback

theorem Segment.get_pulses {s : Segment} {axis : Axis}
    (hfraction : (s.fractions.get axis).toNat ≤ 2 ^ 31) :
    s.pulses.get axis = stepsAfter (s.fractions.get axis) s.loops.toNat := by
  have hrun := (Playback.after_ofSegment s).get_runFrom (Nat.zero_le _) hfraction
    (Vector.replicate axisCount 0)
  rw [stepsAfter_zero, Axes.get_replicate] at hrun
  unfold Segment.pulses Playback.run
  omega

end PulseTrain
