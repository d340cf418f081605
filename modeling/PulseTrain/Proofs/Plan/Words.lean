import PulseTrain.Proofs.Division.Course
import PulseTrain.Proofs.Plan.Segments

/-!
# Exact words

Steps, shares, sums, positions and fractions are kept in words of 16 to 64 bits, and none
of them ever wraps around or loses a digit.  The tightest is the running sum of a share:
the lowest step count in fixed point is the lowest 64 bit number, and the highest one
leaves less than `2 ^ 32` units of room, of which the sum needs two at most for each of
the fewer than `2 ^ 18` divisions.

Every word is compared with the integer that it stands for, one operation after another
and draw by draw, whatever the number of divisions is.  The invariant
`Divisions.DrawnFrom` carries the sums from one draw to the next.
-/

namespace PulseTrain

namespace Divisions

/-! ## One draw -/

/-- Drawing `division` from `d`, after `k` other draws, computes for one axis the integers
that the words stand for. -/
structure ExactDraw (k : ℕ) (d rest : Divisions) (division : Division) (axis : Axis) :
    Prop where
  sum : (rest.progress.get axis).toInt =
    (d.progress.get axis).toInt + (d.shares.get axis).toInt
  total : (rest.progress.get axis).toInt = (k + 1) * (d.shares.get axis).toInt
  shifted : (rest.progress.get axis >>> (32 : Int64)).toInt =
    (rest.progress.get axis).toInt / 2 ^ 32
  narrowed : (rest.position.get axis).toInt =
    (rest.progress.get axis >>> (32 : Int64)).toInt
  difference : (division.movement.steps.get axis).toInt =
    (rest.position.get axis).toInt - (d.position.get axis).toInt

variable {m : Movement} {definingSteps : UInt32} {k : ℕ} {d rest : Divisions}
  {division : Division}

theorem DrawnFrom.exactDraw (hdrawn : DrawnFrom m definingSteps k d)
    (hnext : d.next? = some (division, rest)) (axis : Axis) :
    ExactDraw k d rest division axis := by
  obtain ⟨hrest, hcovers⟩ := hdrawn.next hnext
  have hshare : (d.shares.get axis).toInt =
      exactShare (m.steps.get axis).toInt (divisionCount definingSteps).toNat := by
    rw [hdrawn.shares, Axes.get_map]
    exact toInt_share _ (divisionCount_pos definingSteps) (divisionCount_le definingSteps)
  have hbefore := hdrawn.progress axis
  have hafter := hrest.progress axis
  constructor
  · rw [hafter, hbefore, hshare, succ_mul_exactShare]
  · rw [hafter, hshare]
    push_cast
    rfl
  · exact toInt_shiftRight _
  · rw [toInt_shiftRight, hrest.position axis, hafter]
    rfl
  · rw [hcovers.steps axis, hrest.position axis, hdrawn.position axis]

/-! ## All draws -/

theorem DrawnFrom.exists_next (hdrawn : DrawnFrom m definingSteps k d)
    (hk : k < (divisionCount definingSteps).toNat) :
    ∃ division rest, d.next? = some (division, rest) := by
  cases hnext : d.next? with
  | none =>
      have htotal := hdrawn.remaining
      rw [next?_eq_none_iff.mp hnext, UInt32.toNat_zero] at htotal
      omega
  | some drawn => exact ⟨drawn.1, drawn.2, rfl⟩

theorem drawnFrom_afterDraws (m : Movement) (definingSteps : UInt32)
    (hk : k ≤ (divisionCount definingSteps).toNat) :
    DrawnFrom m definingSteps k ((ofMovement m definingSteps).afterDraws k) := by
  induction k with
  | zero => exact drawnFrom_ofMovement m definingSteps
  | succ k ih =>
      have hdrawn := ih (by omega)
      obtain ⟨division, rest, hnext⟩ := hdrawn.exists_next (by omega)
      rw [afterDraws_succ hnext]
      exact (hdrawn.next hnext).1

/-- Dividing `m` computes the integers that the words stand for, from the number of
divisions to the steps of the last one. -/
structure Exact (m : Movement) (definingSteps : UInt32) : Prop where
  count : (divisionCount definingSteps).toNat = definingSteps.toNat / 32767 + 1
  scaled : ∀ axis : Axis, ((m.steps.get axis).toInt64 <<< (32 : Int64)).toInt =
    (m.steps.get axis).toInt * 2 ^ 32
  divided : ∀ axis : Axis, (((m.steps.get axis).toInt64 <<< (32 : Int64)) /
      (divisionCount definingSteps).toUInt64.toInt64).toInt =
    ((m.steps.get axis).toInt * 2 ^ 32).tdiv (divisionCount definingSteps).toNat
  raised : ∀ axis : Axis, ((ofMovement m definingSteps).shares.get axis).toInt =
    ((m.steps.get axis).toInt * 2 ^ 32).tdiv (divisionCount definingSteps).toNat + 1
  draws : ∀ k < (divisionCount definingSteps).toNat, ∃ division rest,
    ((ofMovement m definingSteps).afterDraws k).next? = some (division, rest) ∧
      rest = (ofMovement m definingSteps).afterDraws (k + 1) ∧
      (∀ axis : Axis,
        ExactDraw k ((ofMovement m definingSteps).afterDraws k) rest division axis) ∧
      IsGreatest (Set.range fun axis : Axis =>
        (division.movement.steps.get axis).toInt.natAbs) division.definingSteps.toNat

theorem exact_ofMovement (m : Movement) (definingSteps : UInt32) :
    Exact m definingSteps := by
  constructor
  · exact toNat_divisionCount definingSteps
  · intro axis
    exact toInt_toInt64_shiftLeft _
  · intro axis
    exact toInt_shiftLeft_div _ _
  · intro axis
    rw [(drawnFrom_ofMovement m definingSteps).shares, Axes.get_map]
    exact toInt_share _ (divisionCount_pos definingSteps) (divisionCount_le definingSteps)
  · intro k hk
    have hdrawn := drawnFrom_afterDraws m definingSteps hk.le
    obtain ⟨division, rest, hnext⟩ := hdrawn.exists_next hk
    have hown : division.definingSteps = division.movement.definingSteps :=
      (hdrawn.next hnext).2.definingSteps
    refine ⟨division, rest, hnext, (afterDraws_succ hnext).symm, hdrawn.exactDraw hnext, ?_⟩
    rw [hown]
    exact division.movement.isGreatest_definingSteps

end Divisions

/-! ## Segments -/

/-- The fractions and loops of the segment are those of `m` in integers. -/
structure Segment.ExactFor (m : Movement) (definingSteps : ℕ) (s : Segment) : Prop where
  product : ∀ axis : Axis,
    ((stepMagnitude (m.steps.get axis)).toUInt64 * fractionScale).toNat =
      (m.steps.get axis).toInt.natAbs * 2 ^ 31
  fraction : ∀ axis : Axis, (s.fractions.get axis).toNat =
    (m.steps.get axis).toInt.natAbs * 2 ^ 31 / definingSteps
  loops : s.loops.toNat = 2 * definingSteps

theorem Timing.exactFor_synthesize (t : Timing) {m : Movement}
    (hfits : m.definingSteps.toNat ≤ 32767) :
    (t.synthesize m m.definingSteps).value.ExactFor m m.definingSteps.toNat := by
  constructor
  · intro axis
    exact toNat_mul_fractionScale _
  · intro axis
    have hfraction : (t.synthesize m m.definingSteps).value.fractions.get axis =
        PulseTrain.fraction (m.steps.get axis) m.definingSteps :=
      Axes.get_map _ m.steps axis
    rw [hfraction]
    exact toNat_fraction (natAbs_le_largestMagnitude m.steps axis)
  · rw [← toNat_loops hfits, ← t.loops_phase m]
    rfl

/-- No word overflows or is cut off while a movement is divided into any number of
divisions, while one that fits is made into a segment, or in the plan of one that is
accepted. -/
theorem Movement.words_exact (m : Movement) :
    (∀ definingSteps : UInt32, Divisions.Exact m definingSteps) ∧
      (∀ (t : Timing) (n : ℕ),
        IsGreatest (Set.range fun axis : Axis => (m.steps.get axis).toInt.natAbs) n →
        1 ≤ n → n ≤ 32767 →
          m.definingSteps.toNat = n ∧
            (t.synthesize m m.definingSteps).value.ExactFor m n) ∧
      ∀ (t : Timing) (p : Plan), (t.plan m).value = .ok p →
        ∀ (k : ℕ) (entry : Logged Segment), p.segments[k]? = some entry →
          ∃ piece : Division, m.pieces[k]? = some piece ∧
            entry = t.synthesize piece.movement piece.definingSteps ∧
            entry.value.ExactFor piece.movement piece.definingSteps.toNat := by
  refine ⟨Divisions.exact_ofMovement m, ?_, ?_⟩
  · intro t n hn hmoves hfits
    obtain rfl : n = m.definingSteps.toNat := hn.unique m.isGreatest_definingSteps
    exact ⟨rfl, t.exactFor_synthesize hfits⟩
  · intro t p hplan k entry hentry
    obtain ⟨piece, hpiece, rfl, -⟩ := Plan.exists_piece_of_segment hplan hentry
    have hown : piece.definingSteps = piece.movement.definingSteps :=
      (Movement.covers_pieces hpiece).definingSteps
    have hfits := Movement.definingSteps_le_of_piece hpiece
    refine ⟨piece, hpiece, rfl, ?_⟩
    rw [hown] at hfits ⊢
    exact t.exactFor_synthesize hfits

/-- The lowest and the highest step count in the largest number of divisions and in a plan,
and the most steps that one segment can hold. -/
theorem Movement.words_exact_at_bounds :
    Divisions.Exact (.ofSteps [-2147483648, 2147483647] 10 10 0) 4294967295 ∧
      (∃ p : Plan,
        (Timing.plan {} (.ofSteps [-2147483648, 2147483647] 10 10 0)).value = .ok p ∧
          ∀ (k : ℕ) (entry : Logged Segment), p.segments[k]? = some entry →
            ∃ piece : Division,
              entry.value.ExactFor piece.movement piece.definingSteps.toNat) ∧
      IsGreatest (Set.range fun axis : Axis =>
        ((Movement.ofSteps [-32767, 5] 10 10 0).steps.get axis).toInt.natAbs) 32767 ∧
      (Timing.synthesize {} (.ofSteps [-32767, 5] 10 10 0) 32767).value.ExactFor
        (.ofSteps [-32767, 5] 10 10 0) 32767 := by
  obtain ⟨hdivided, -, hplanned⟩ :=
    Movement.words_exact (.ofSteps [-2147483648, 2147483647] 10 10 0)
  have hgreatest : IsGreatest (Set.range fun axis : Axis =>
      ((Movement.ofSteps [-32767, 5] 10 10 0).steps.get axis).toInt.natAbs) 32767 :=
    Movement.isGreatest_definingSteps _
  refine ⟨hdivided _, ⟨_, rfl, ?_⟩, hgreatest, ?_⟩
  · intro k entry hentry
    obtain ⟨piece, -, -, hexact⟩ := hplanned {} _ rfl k entry hentry
    exact ⟨piece, hexact⟩
  · exact ((Movement.words_exact (.ofSteps [-32767, 5] 10 10 0)).2.1 {} 32767 hgreatest
      (by omega) (by omega)).2

end PulseTrain
