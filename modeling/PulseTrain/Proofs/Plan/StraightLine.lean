import PulseTrain.Proofs.Plan.Segments
import PulseTrain.Proofs.Playback.Loops

/-!
# Axes stay on the straight line

Two roundings pull an axis off the straight line of its movement.  Positions
between the pieces are rounded down, which costs less than one step and does not
add up, since every position is taken from the running sum itself.  Within a
segment the steps of an axis are spread by its truncated fraction, and no loop is
ever a whole step away from an even spread.  The two together stay below two steps
at every loop of the movement.
-/

namespace PulseTrain

theorem abs_sub_div_lt_one_iff {x y : ℤ} {count : ℕ} (hcount : 0 < count) :
    |(x : ℚ) - y / count| < 1 ↔ |count * x - y| < count := by
  have hcountRat : (0 : ℚ) < count := by exact_mod_cast hcount
  have hscale : (x : ℚ) - y / count = (count * x - y : ℤ) / count := by
    push_cast
    field_simp
  rw [hscale, abs_div, abs_of_pos hcountRat, div_lt_one hcountRat, ← Int.cast_abs]
  exact_mod_cast Iff.rfl

/-! ## Positions between the pieces -/

theorem abs_exactPosition_sub_lt (steps : ℤ) {count : ℕ} (hcount : 0 < count)
    (hsmall : count ≤ 2 ^ 31) {k : ℕ} (hk : k ≤ count) :
    |(exactPosition steps count k : ℚ) - steps * k / count| < 1 := by
  obtain ⟨excess, hsum, hexcess, hbound⟩ := count_mul_exactShare steps hcount
  have hcountInt : (0 : ℤ) < count := by exact_mod_cast hcount
  -- The position is the running sum without its fractional bits.
  have hfloor := Int.mul_ediv_add_emod (k * exactShare steps count) (2 ^ 32)
  have hnonneg := Int.emod_nonneg (k * exactShare steps count) (b := 2 ^ 32) (by norm_num)
  have hless := Int.emod_lt_of_pos (k * exactShare steps count) (b := 2 ^ 32) (by norm_num)
  change 2 ^ 32 * exactPosition steps count k + _ = _ at hfloor
  -- The running sum exceeds the line by the excess of `k` shares.
  have hline : count * (k * exactShare steps count) = steps * k * 2 ^ 32 + k * excess := by
    calc (count : ℤ) * (k * exactShare steps count)
        = k * (count * exactShare steps count) := by ring
      _ = steps * k * 2 ^ 32 + k * excess := by rw [hsum]; ring
  have hexcessNonneg : 0 ≤ (k : ℤ) * excess := by positivity
  have hexcessSmall : (k : ℤ) * excess < count * 2 ^ 32 := by
    calc (k : ℤ) * excess ≤ count * excess := by
          exact mul_le_mul_of_nonneg_right (by exact_mod_cast hk) hexcess.le
      _ < count * 2 ^ 32 := mul_lt_mul_of_pos_left (by omega) hcountInt
  have hupper : count * exactPosition steps count k < steps * k + count := by nlinarith
  have hlower : steps * k - count < count * exactPosition steps count k := by nlinarith
  exact_mod_cast (abs_sub_div_lt_one_iff (y := steps * k) hcount).mpr
    (abs_lt.mpr ⟨by linarith, by linarith⟩)

/-- The signed pulses of an axis in the first `index` segments. -/
def Plan.position (p : Plan) (axis : Axis) (index : ℕ) : ℤ :=
  ((p.segments.take index).map fun entry => entry.value.signedPulses axis).sum

theorem Plan.position_eq {t : Timing} {m : Movement} {p : Plan}
    (hplan : (t.plan m).value = .ok p) (axis : Axis) {index : ℕ}
    (hindex : index ≤ p.segments.length) :
    p.position axis index =
      exactPosition (m.steps.get axis).toInt p.segments.length index := by
  have hsum := sum_map_eq_sub (k := 0) (l := p.segments.take index)
    (fun entry => entry.value.signedPulses axis)
    (exactPosition (m.steps.get axis).toInt p.segments.length)
    (by
      intro k entry hentry
      rw [List.getElem?_take] at hentry
      split at hentry
      next =>
        obtain ⟨piece, hpiece, -, hplays⟩ := Plan.exists_piece_of_segment hplan hentry
        rw [hplays.signedPulses axis, Nat.zero_add, Plan.length_segments hplan]
        exact (Movement.covers_pieces hpiece).steps axis
      next => cases hentry)
  rw [List.length_take, min_eq_left hindex, exactPosition_zero, sub_zero, Nat.zero_add] at hsum
  exact hsum

/-! ## Loops of one segment -/

theorem mul_lineChanges_fraction_le {steps : Int32} {definingSteps : UInt32}
    (hle : steps.toInt.natAbs ≤ definingSteps.toNat) (loop : ℕ) :
    definingSteps.toNat * lineChanges (fraction steps definingSteps) loop ≤
      steps.toInt.natAbs * loop := by
  have hfraction := Nat.mul_div_le (steps.toInt.natAbs * 2 ^ 31) definingSteps.toNat
  rw [← toNat_fraction hle] at hfraction
  have hchanges := Nat.div_mul_le_self (loop * (fraction steps definingSteps).toNat) (2 ^ 31)
  apply Nat.le_of_mul_le_mul_right _ (Nat.two_pow_pos 31)
  calc definingSteps.toNat * lineChanges (fraction steps definingSteps) loop * 2 ^ 31
      = definingSteps.toNat *
          (lineChanges (fraction steps definingSteps) loop * 2 ^ 31) := by ring
    _ ≤ definingSteps.toNat * (loop * (fraction steps definingSteps).toNat) :=
        Nat.mul_le_mul_left _ hchanges
    _ = definingSteps.toNat * (fraction steps definingSteps).toNat * loop := by ring
    _ ≤ steps.toInt.natAbs * 2 ^ 31 * loop := Nat.mul_le_mul_right _ hfraction
    _ = steps.toInt.natAbs * loop * 2 ^ 31 := by ring

/-- What the truncated fraction loses in a whole segment is less than one change of the
line, and the change under way is less than another. -/
theorem lt_mul_lineChanges_fraction_add {steps : Int32} {definingSteps : UInt32}
    (hpos : 0 < definingSteps.toNat) (hfits : definingSteps.toNat ≤ 32767)
    (hle : steps.toInt.natAbs ≤ definingSteps.toNat) {loop : ℕ}
    (hloop : loop ≤ 2 * definingSteps.toNat) :
    steps.toInt.natAbs * loop < definingSteps.toNat *
      (lineChanges (fraction steps definingSteps) loop + 2) := by
  have hfraction := Nat.lt_mul_div_succ (steps.toInt.natAbs * 2 ^ 31) hpos
  rw [← toNat_fraction hle] at hfraction
  have hchanges := Nat.lt_mul_div_succ (loop * (fraction steps definingSteps).toNat)
    (Nat.two_pow_pos 31)
  apply Nat.lt_of_mul_lt_mul_right (a := 2 ^ 31)
  calc steps.toInt.natAbs * loop * 2 ^ 31
      = steps.toInt.natAbs * 2 ^ 31 * loop := by ring
    _ ≤ definingSteps.toNat * ((fraction steps definingSteps).toNat + 1) * loop :=
        Nat.mul_le_mul_right _ hfraction.le
    _ = definingSteps.toNat * (loop * (fraction steps definingSteps).toNat + loop) := by ring
    _ < definingSteps.toNat *
          ((lineChanges (fraction steps definingSteps) loop + 2) * 2 ^ 31) := by
        apply Nat.mul_lt_mul_of_pos_left _ hpos
        unfold lineChanges
        omega
    _ = _ := by ring

/-- No loop of a segment is a whole step away from an even spread of the steps. -/
theorem abs_stepsAfter_fraction_sub_lt {steps : Int32} {definingSteps : UInt32}
    (hpos : 0 < definingSteps.toNat) (hfits : definingSteps.toNat ≤ 32767)
    (hle : steps.toInt.natAbs ≤ definingSteps.toNat) {loop : ℕ}
    (hloop : loop ≤ 2 * definingSteps.toNat) :
    |(stepsAfter (fraction steps definingSteps) loop : ℚ) -
      steps.toInt.natAbs * loop / (2 * definingSteps.toNat : ℕ)| < 1 := by
  have hupper := mul_lineChanges_fraction_le hle loop
  have hlower := lt_mul_lineChanges_fraction_add hpos hfits hle hloop
  have hhalf : lineChanges (fraction steps definingSteps) loop ≤
        2 * stepsAfter (fraction steps definingSteps) loop ∧
      2 * stepsAfter (fraction steps definingSteps) loop ≤
        lineChanges (fraction steps definingSteps) loop + 1 := by
    unfold stepsAfter
    omega
  have hbelow := Nat.mul_le_mul_left definingSteps.toNat hhalf.1
  have habove := Nat.mul_le_mul_left definingSteps.toNat hhalf.2
  have hnear : |((2 * definingSteps.toNat : ℕ) : ℤ) *
      (stepsAfter (fraction steps definingSteps) loop : ℕ) -
        (steps.toInt.natAbs * loop : ℕ)| < (2 * definingSteps.toNat : ℕ) := by
    rw [abs_lt]
    constructor
    · zify at hlower hbelow
      push_cast
      linarith
    · zify at hupper habove hpos
      push_cast
      linarith
  rw [← abs_sub_div_lt_one_iff (by omega)] at hnear
  simpa only [Nat.cast_mul, Int.cast_mul, Int.cast_natCast] using hnear

/-- Steps of an axis in the first `count` loops, counted backwards where it moves
backwards. -/
def Segment.signedPulsesIn (s : Segment) (count : ℕ) (axis : Axis) : ℤ :=
  if s.isReversed axis then -(s.pulsesIn count axis) else s.pulsesIn count axis

theorem Movement.abs_signedPulsesIn_sub_lt (t : Timing) {m : Movement} {k : ℕ}
    {piece : Division} (hmoves : m.definingSteps ≠ 0) (hget : m.pieces[k]? = some piece)
    {s : Segment} (hs : s = (t.synthesize piece.movement piece.definingSteps).value)
    (axis : Axis) {loop : ℕ} (hloop : loop ≤ s.loops.toNat) :
    |(s.signedPulsesIn loop axis : ℚ) -
      (piece.movement.steps.get axis).toInt * (loop / s.loops.toNat)| < 1 := by
  have hplays := playsBack_of_piece t hmoves hget
  rw [← hs] at hplays
  have hown : piece.definingSteps = piece.movement.definingSteps :=
    (covers_pieces hget).definingSteps
  have hloops := hplays.loops
  rw [← hown] at hloops
  have hfraction : s.fractions.get axis =
      fraction (piece.movement.steps.get axis) piece.definingSteps := by
    rw [hs]
    exact Axes.get_map _ piece.movement.steps axis
  have hmost : (piece.movement.steps.get axis).toInt.natAbs ≤ piece.definingSteps.toNat := by
    rw [hown]
    exact natAbs_le_largestMagnitude piece.movement.steps axis
  have hpulses := Segment.pulsesIn_eq_stepsAfter (hplays.fraction_le axis) loop
  rw [min_eq_left hloop] at hpulses
  have hspread := abs_stepsAfter_fraction_sub_lt (definingSteps_pos_of_piece hmoves hget)
    (definingSteps_le_of_piece hget) hmost (hloops ▸ hloop)
  rw [← hfraction, ← hpulses, ← hloops, mul_div_assoc] at hspread
  have hreversed := hplays.isReversed_iff axis
  unfold Segment.signedPulsesIn
  split
  next hset =>
    rw [Nat.cast_natAbs, abs_of_neg (hreversed.mp hset)] at hspread
    rw [← abs_neg]
    push_cast at hspread ⊢
    convert hspread using 2
    ring
  next hclear =>
    rw [Nat.cast_natAbs, abs_of_nonneg (not_lt.mp (mt hreversed.mpr hclear))] at hspread
    push_cast
    exact hspread

/-! ## The whole movement -/

/-- A path that starts and ends less than one step off a line, and runs less than one
step off the straight way between its ends, stays less than two steps off the line. -/
theorem abs_add_sub_line_lt_two {start stop made lineStart lineStop weight : ℚ}
    (hnonneg : 0 ≤ weight) (hle : weight ≤ 1) (hstart : |start - lineStart| < 1)
    (hstop : |stop - lineStop| < 1) (hmade : |made - (stop - start) * weight| < 1) :
    |start + made - ((1 - weight) * lineStart + weight * lineStop)| < 2 := by
  have hmean : |(1 - weight) * (start - lineStart) + weight * (stop - lineStop)| < 1 :=
    abs_lt.mpr (convex_Ioo (-1) 1 (abs_lt.mp hstart) (abs_lt.mp hstop)
      (sub_nonneg.mpr hle) hnonneg (sub_add_cancel 1 weight))
  have hsplit : start + made - ((1 - weight) * lineStart + weight * lineStop) =
      (made - (stop - start) * weight) +
        ((1 - weight) * (start - lineStart) + weight * (stop - lineStop)) := by ring
  calc |start + made - ((1 - weight) * lineStart + weight * lineStop)|
      ≤ |made - (stop - start) * weight| +
          |(1 - weight) * (start - lineStart) + weight * (stop - lineStop)| := by
        rw [hsplit]
        exact abs_add_le _ _
    _ < 2 := by linarith

/-- At the start and at the end of every segment an axis is less than one step away
from the straight line of the movement, and after every loop less than two. -/
theorem Plan.near_straight_line {t : Timing} {m : Movement} {p : Plan}
    (hplan : (t.plan m).value = .ok p) (axis : Axis) :
    (∀ index ≤ p.segments.length,
      |(p.position axis index : ℚ) -
        (m.steps.get axis).toInt * index / p.segments.length| < 1) ∧
      ∀ index entry, p.segments[index]? = some entry →
        ∀ loop : ℕ, loop ≤ entry.value.loops.toNat →
          |((p.position axis index + entry.value.signedPulsesIn loop axis : ℤ) : ℚ) -
            (m.steps.get axis).toInt * (index + loop / entry.value.loops.toNat) /
              p.segments.length| < 2 := by
  have hcount := m.length_pieces_pos
  have hsmall := m.length_pieces_le
  rw [← Plan.length_segments hplan] at hcount hsmall
  have hboundary : ∀ index ≤ p.segments.length,
      |(p.position axis index : ℚ) -
        (m.steps.get axis).toInt * index / p.segments.length| < 1 := by
    intro index hindex
    rw [Plan.position_eq hplan axis hindex]
    exact abs_exactPosition_sub_lt _ hcount hsmall hindex
  refine ⟨hboundary, ?_⟩
  intro index entry hentry loop hloop
  have hmoves := (Timing.plan_eq_ok hplan).1
  have hindex : index < p.segments.length := (List.getElem?_eq_some_iff.mp hentry).1
  obtain ⟨piece, hpiece, hsynthesized, -⟩ := Plan.exists_piece_of_segment hplan hentry
  have hspread := Movement.abs_signedPulsesIn_sub_lt t hmoves hpiece
    (congrArg Logged.value hsynthesized) axis hloop
  have hsteps := (Movement.covers_pieces hpiece).steps axis
  rw [← Plan.length_segments hplan, ← Plan.position_eq hplan axis hindex,
    ← Plan.position_eq hplan axis hindex.le] at hsteps
  have hstart := hboundary index hindex.le
  have hstop := hboundary (index + 1) hindex
  have hnonneg : (0 : ℚ) ≤ loop / entry.value.loops.toNat := by positivity
  have hle : (loop / entry.value.loops.toNat : ℚ) ≤ 1 :=
    div_le_one_of_le₀ (by exact_mod_cast hloop) (by positivity)
  rw [hsteps] at hspread
  push_cast at hspread hstop ⊢
  -- Within the segment the line is the weighted mean of its values at the two ends.
  convert abs_add_sub_line_lt_two hnonneg hle hstart hstop hspread using 2
  ring

/-- Halfway through the longest movement the axis with the lowest step count is
still within one step. -/
theorem Plan.near_straight_line_of_lowest :
    ∃ p : Plan,
      (Timing.plan {} (.ofSteps [2147483647, -2147483648] 10 10 0)).value = .ok p ∧
        p.segments.length = 65539 ∧
        |(p.position 1 32769 : ℚ) - -2147483648 * 32769 / 65539| < 1 := by
  obtain ⟨p, hplan⟩ : ∃ p : Plan,
      (Timing.plan {} (.ofSteps [2147483647, -2147483648] 10 10 0)).value = .ok p :=
    ⟨_, rfl⟩
  have hlength : p.segments.length = 65539 := by
    rw [Plan.length_segments hplan, Movement.length_pieces]
    decide
  have hsteps :
      ((Movement.ofSteps [2147483647, -2147483648] 10 10 0).steps.get 1).toInt =
        -2147483648 := rfl
  have hnear := (Plan.near_straight_line hplan 1).1 32769 (by omega)
  rw [hlength, hsteps] at hnear
  push_cast at hnear
  exact ⟨p, hplan, hlength, hnear⟩

end PulseTrain
