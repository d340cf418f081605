import Mathlib.Algebra.Order.Floor.Div
import PulseTrain.Proofs.Playback.Edges

/-!
# A segment loop by loop

What the wires and the step counters show after every single loop of a segment,
not only at its end.  The line of an axis is a wire: it keeps its level when a
segment ends, although the accumulators of the next segment start from zero.  So
a line is described by its level after each loop, and its steps are the places
where that list of levels rises from the level before.
-/

namespace PulseTrain

/-! ## Levels of a line -/

/-- How often a line rises that was at the level `before` and then shows the
given levels, one after another. -/
def rises (before : Bool) : List Bool → ℕ
  | [] => 0
  | level :: later => (if !before && level then 1 else 0) + rises level later

theorem rises_append (before : Bool) (first second : List Bool) :
    rises before (first ++ second) =
      rises before first + rises (first.getLast?.getD before) second := by
  induction first generalizing before with
  | nil => simp [rises]
  | cons level later ih =>
      rw [List.cons_append, rises, rises, ih, List.getLast?_cons, Option.getD_some]
      omega

/-- A line that is high already misses the rise of a list that starts high. -/
theorem rises_add_eq (before : Bool) (levels : List Bool) :
    rises before levels + (if before && levels.head?.getD false then 1 else 0) =
      rises false levels := by
  cases levels with
  | nil => simp [rises]
  | cons level later =>
      cases before with
      | false => simp
      | true =>
          simp only [rises, List.head?_cons, Option.getD_some, Bool.not_true, Bool.not_false,
            Bool.false_and, Bool.true_and]
          simp only [Bool.false_eq_true, if_false, Nat.zero_add]
          omega

theorem getLast?_map_range_succ (level : ℕ → Bool) (n : ℕ) :
    ((List.range n).map fun k => level (k + 1)).getLast?.getD (level 0) = level n := by
  cases n with
  | zero => rfl
  | succ n => simp [List.range_succ]

/-! ## Loops of a segment -/

namespace Playback

/-- Attempts beyond the last loop change nothing. -/
theorem After.forward {s : Segment} {k : ℕ} {p : Playback} (hafter : After s k p)
    (hk : k ≤ s.loops.toNat) (count : ℕ) :
    After s (min (k + count) s.loops.toNat) (p.forward count) := by
  induction count generalizing k p with
  | zero =>
      rw [Nat.add_zero, min_eq_left hk]
      exact hafter
  | succ count ih =>
      cases hadvance : p.advance? with
      | none =>
          have hend := hafter.advance?_eq_none_iff.mp hadvance
          obtain rfl : k = s.loops.toNat := by omega
          rw [min_eq_right (Nat.le_add_right _ _)]
          simpa only [Playback.forward, hadvance] using hafter
      | some advanced =>
          obtain ⟨rising, next⟩ := advanced
          obtain ⟨hrunning, hnext, -⟩ := hafter.advance hadvance
          have hrest := ih hnext hrunning
          simp only [Playback.forward, hadvance]
          rwa [show k + (count + 1) = k + 1 + count by omega]

/-- Attempts to run a loop add the steps between the two loop numbers. -/
theorem After.countP_advanceTimes {s : Segment} {k : ℕ} {p : Playback} {axis : Axis}
    (hafter : After s k p) (hk : k ≤ s.loops.toNat)
    (hfraction : (s.fractions.get axis).toNat ≤ 2 ^ 31) (count : ℕ) :
    (p.advanceTimes count).1.countP (fun rising => rising.any (·.contains axis)) +
        stepsAfter (s.fractions.get axis) k =
      stepsAfter (s.fractions.get axis) (min (k + count) s.loops.toNat) := by
  induction count generalizing k p with
  | zero => simp [advanceTimes, hk]
  | succ count ih =>
      cases hadvance : p.advance? with
      | none =>
          have hend := hafter.advance?_eq_none_iff.mp hadvance
          obtain rfl : k = s.loops.toNat := by omega
          rw [min_eq_right (Nat.le_add_right _ _)]
          simp [advanceTimes, hadvance, List.countP_replicate]
      | some advanced =>
          obtain ⟨rising, next⟩ := advanced
          obtain ⟨hrunning, hnext, hrising⟩ := hafter.advance hadvance
          have hrest := ih hnext hrunning
          rw [stepsAfter_succ hfraction] at hrest
          simp only [advanceTimes, hadvance, List.countP_cons, Option.any_some, hrising axis,
            decide_eq_true_eq]
          rw [show k + (count + 1) = k + 1 + count by omega]
          omega

/-- The attempts leave the playback where it is without their answers. -/
theorem snd_advanceTimes (count : ℕ) (p : Playback) :
    (p.advanceTimes count).2 = p.forward count := by
  induction count generalizing p with
  | zero => rfl
  | succ count ih =>
      cases hadvance : p.advance? with
      | none => simp only [advanceTimes, Playback.forward, hadvance]
      | some advanced => simp only [advanceTimes, Playback.forward, hadvance, ih]

end Playback

namespace Segment

/-- The level of the line of an axis after each loop of the segment. -/
def lineLevels (s : Segment) (axis : Axis) : List Bool :=
  (List.range s.loops.toNat).map fun loop =>
    ((Playback.ofSegment s).forward (loop + 1)).levels.contains axis

/-- Steps of an axis in the first `count` loops of the segment. -/
def pulsesIn (s : Segment) (count : ℕ) (axis : Axis) : ℕ :=
  ((Playback.ofSegment s).advanceTimes count).1.countP
    fun rising => rising.any (·.contains axis)

theorem lineLevels_eq_map (s : Segment) (axis : Axis) :
    s.lineLevels axis = (List.range s.loops.toNat).map fun loop =>
      decide (lineChanges (s.fractions.get axis) (loop + 1) % 2 = 1) := by
  unfold lineLevels
  apply List.map_congr_left
  intro loop hloop
  have hafter := (Playback.after_ofSegment s).forward (Nat.zero_le _) (loop + 1)
  rw [Nat.zero_add, min_eq_left (List.mem_range.mp hloop)] at hafter
  exact hafter.levels axis

theorem pulsesIn_eq_stepsAfter {s : Segment} {axis : Axis}
    (hfraction : (s.fractions.get axis).toNat ≤ 2 ^ 31) (count : ℕ) :
    s.pulsesIn count axis = stepsAfter (s.fractions.get axis) (min count s.loops.toNat) := by
  have hsteps :=
    (Playback.after_ofSegment s).countP_advanceTimes (Nat.zero_le _) hfraction count
  rw [stepsAfter_zero, Nat.zero_add] at hsteps
  exact hsteps

theorem rises_lineLevels {s : Segment} {axis : Axis}
    (hfraction : (s.fractions.get axis).toNat ≤ 2 ^ 31) :
    rises false (s.lineLevels axis) = s.pulses.get axis := by
  have hlow : decide (lineChanges (s.fractions.get axis) 0 % 2 = 1) = false := by
    simp [lineChanges_zero]
  rw [get_pulses hfraction, lineLevels_eq_map]
  induction s.loops.toNat with
  | zero => simp [rises, stepsAfter_zero]
  | succ n ih =>
      have hlast := getLast?_map_range_succ
        (fun k => decide (lineChanges (s.fractions.get axis) k % 2 = 1)) n
      rw [hlow] at hlast
      rw [List.range_succ, List.map_append, rises_append, ih, hlast, stepsAfter_succ hfraction]
      simp [rises, and_comm]

/-- What an axis shows after any number of attempts to run a loop.  Only as many of them
count as the segment has loops, and of the changes of a line every second is a step. -/
theorem shown_after_attempts {s : Segment} {axis : Axis}
    (hfraction : (s.fractions.get axis).toNat ≤ 2 ^ 31) (attempts : ℕ) :
    let f := (s.fractions.get axis).toNat
    let m := min attempts s.loops.toNat
    let attempted := (Playback.ofSegment s).advanceTimes attempts
    attempted.2.loop = m ∧
      (attempted.2.accumulators.get axis).toNat = m * f % 2 ^ 32 ∧
      attempted.2.levels.contains axis = decide (m * f / 2 ^ 31 % 2 = 1) ∧
      attempted.1.countP (fun rising => rising.any (·.contains axis)) =
        (m * f / 2 ^ 31) ⌈/⌉ 2 ∧
      s.pulses.get axis = (s.loops.toNat * f / 2 ^ 31 + 1) / 2 := by
  intro f m attempted
  have hafter : Playback.After s m attempted.2 := by
    have hforward := (Playback.after_ofSegment s).forward (Nat.zero_le _) attempts
    rwa [Nat.zero_add, ← Playback.snd_advanceTimes] at hforward
  refine ⟨hafter.loop, hafter.accumulators axis, hafter.levels axis, ?_, get_pulses hfraction⟩
  rw [Nat.ceilDiv_eq_add_pred_div]
  exact pulsesIn_eq_stepsAfter hfraction attempts

/-- Two thirds of a whole advance fall short of four changes in six loops, and three more
attempts change nothing. -/
theorem shown_after_attempts_of_two_thirds :
    let s : Segment := ⟨0, Axes.ofList 0 [0x80000000, 0x55555555], .travel 6 100, 0, .filled⟩
    let attempted := (Playback.ofSegment s).advanceTimes 9
    (s.fractions.get 1).toNat ≤ 2 ^ 31 ∧
      attempted.2.loop = 6 ∧
      (attempted.2.accumulators.get 1).toNat = 6 * 1431655765 % 2 ^ 32 ∧
      attempted.2.levels.contains 1 = true ∧
      attempted.1.countP (fun rising => rising.any (·.contains 1)) = 2 ∧
      s.pulses.get 1 = 2 := by
  intro s attempted
  have hfraction : (s.fractions.get 1).toNat ≤ 2 ^ 31 := by decide
  obtain ⟨hloop, haccumulator, hlevel, hrising, hpulses⟩ := shown_after_attempts hfraction 9
  have hchanges : min 9 s.loops.toNat * (s.fractions.get 1).toNat / 2 ^ 31 = 3 := by decide
  rw [hchanges] at hlevel hrising
  rw [Nat.ceilDiv_eq_add_pred_div] at hrising
  exact ⟨hfraction, hloop, haccumulator, hlevel, hrising, hpulses.trans (by decide)⟩

end Segment

end PulseTrain
