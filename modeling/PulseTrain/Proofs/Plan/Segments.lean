import PulseTrain.Proofs.Plan.Capacity
import PulseTrain.Proofs.Synthesis

/-!
# The segments of a plan

Every segment of a plan plays back one piece of the movement.  The two results
are about the plan as a whole: how many segments it has and what each of them
looks like, and that playing them all moves every axis by exactly the steps that
were asked for.  The second is a telescoping sum over the positions between the
pieces, since no axis ever turns around.
-/

namespace PulseTrain

theorem Movement.playsBack_of_piece (t : Timing) {m : Movement} {k : ℕ} {piece : Division}
    (hmoves : m.definingSteps ≠ 0) (hget : m.pieces[k]? = some piece) :
    (t.synthesize piece.movement piece.definingSteps).value.PlaysBack piece.movement := by
  have hown : piece.definingSteps = piece.movement.definingSteps :=
    (covers_pieces hget).definingSteps
  have hpos := definingSteps_pos_of_piece hmoves hget
  have hfits := definingSteps_le_of_piece hget
  rw [hown] at hpos hfits ⊢
  exact t.playsBack_synthesize hpos hfits

theorem Plan.exists_piece_of_segment {t : Timing} {m : Movement} {p : Plan}
    (hplan : (t.plan m).value = .ok p) {k : ℕ} {entry : Logged Segment}
    (hget : p.segments[k]? = some entry) :
    ∃ piece : Division, m.pieces[k]? = some piece ∧
      entry = t.synthesize piece.movement piece.definingSteps ∧
      entry.value.PlaysBack piece.movement := by
  rw [Plan.segments_of_plan hplan, List.getElem?_map, Option.map_eq_some_iff] at hget
  obtain ⟨piece, hpiece, rfl⟩ := hget
  exact ⟨piece, hpiece, rfl,
    Movement.playsBack_of_piece t (Timing.plan_eq_ok hplan).1 hpiece⟩

/-! ## Shape -/

theorem Plan.length_segments {t : Timing} {m : Movement} {p : Plan}
    (hplan : (t.plan m).value = .ok p) : p.segments.length = m.pieces.length := by
  rw [Plan.segments_of_plan hplan, List.length_map]

/-- An accepted movement is played in as many segments as its defining steps
need, further draws give nothing, and every segment is well formed. -/
theorem Plan.wellFormed {t : Timing} {m : Movement} {p : Plan} {n : ℕ}
    (hplan : (t.plan m).value = .ok p)
    (hn : IsGreatest (Set.range fun axis : Axis => (m.steps.get axis).toInt.natAbs) n) :
    (∀ index, (p.draw? index).isSome ↔ index < if n ≤ 32767 then 1 else n / 32767 + 1) ∧
      ∀ index s, p.draw? index = some s →
        ∃ piece : Division, m.pieces[index]? = some piece ∧
          s = (t.synthesize piece.movement piece.definingSteps).value ∧
          s.slot = .filled ∧
          s.outputs = m.outputs ∧
          [s.accelerationLoops, s.travelLoops, s.decelerationLoops].filter (· ≠ 0) =
            [s.loops] ∧
          Even s.loops.toNat ∧ 2 ≤ s.loops.toNat ∧ s.loops.toNat ≤ 65534 ∧
          s.loops.toNat = 2 * (largestMagnitude piece.movement.steps).toNat ∧
          (∃ axis : Axis, (s.fractions.get axis).toNat = 2 ^ 31) ∧
          ∀ axis : Axis,
            (s.fractions.get axis).toNat ≤ 2 ^ 31 ∧
            ((s.fractions.get axis).toNat = 0 ↔
              (piece.movement.steps.get axis).toInt = 0) ∧
            (s.isReversed axis = true ↔ (piece.movement.steps.get axis).toInt < 0) ∧
            ((piece.movement.steps.get axis).toInt ≠ 0 →
              (s.isReversed axis = true ↔ (m.steps.get axis).toInt < 0)) := by
  have hmoves := (Timing.plan_eq_ok hplan).1
  obtain rfl : n = m.definingSteps.toNat := hn.unique m.isGreatest_definingSteps
  constructor
  · intro index
    rw [Plan.draw?_eq_getElem?, isSome_getElem?, List.length_map,
      Plan.length_segments hplan, m.length_pieces]
  · intro index s hdraw
    rw [Plan.draw?_eq_getElem?, List.getElem?_map, Option.map_eq_some_iff] at hdraw
    obtain ⟨entry, hentry, rfl⟩ := hdraw
    obtain ⟨piece, hpiece, rfl, hplays⟩ := Plan.exists_piece_of_segment hplan hentry
    have hcovers := Movement.covers_pieces hpiece
    have hown : piece.definingSteps = piece.movement.definingSteps := hcovers.definingSteps
    have hpos := Movement.definingSteps_pos_of_piece hmoves hpiece
    have hfits := Movement.definingSteps_le_of_piece hpiece
    have hloops := hplays.loops
    rw [hown] at hpos hfits
    refine ⟨piece, hpiece, rfl, hplays.slot, hplays.outputs.trans hcovers.outputs,
      hplays.onePhase, ?_, by omega, by omega, hloops, hplays.exists_fraction_eq, ?_⟩
    · rw [hloops]
      exact even_two_mul _
    · intro axis
      refine ⟨hplays.fraction_le axis, hplays.fraction_eq_zero_iff axis,
        hplays.isReversed_iff axis, ?_⟩
      intro hmoving
      rw [hplays.isReversed_iff axis]
      exact hcovers.neg_iff_of_ne_zero m.length_pieces_pos m.length_pieces_le hmoving

/-- A movement of 100000 steps takes four segments. -/
theorem Plan.wellFormed_four_segments :
    ∃ p : Plan,
      (Timing.plan {} (.ofSteps [100000, -77777, 3] 0 100 7)).value = .ok p ∧
        IsGreatest (Set.range fun axis : Axis =>
          ((Movement.ofSteps [100000, -77777, 3] 0 100 7).steps.get axis).toInt.natAbs)
          100000 ∧
        (∀ index, (p.draw? index).isSome ↔ index < 4) ∧
        ∀ index s, p.draw? index = some s → s.outputs = 7 := by
  have hgreatest : IsGreatest (Set.range fun axis : Axis =>
      ((Movement.ofSteps [100000, -77777, 3] 0 100 7).steps.get axis).toInt.natAbs)
      100000 := Movement.isGreatest_definingSteps _
  refine ⟨_, rfl, hgreatest, (Plan.wellFormed rfl hgreatest).1, ?_⟩
  intro index s hdraw
  obtain ⟨piece, -, -, -, houtputs, -⟩ := (Plan.wellFormed rfl hgreatest).2 index s hdraw
  exact houtputs

/-! ## Conservation -/

/-- The pulses of an axis, counted backwards where it moves backwards. -/
def Segment.signedPulses (s : Segment) (axis : Axis) : ℤ :=
  if s.isReversed axis then -(s.pulses.get axis) else s.pulses.get axis

theorem Segment.PlaysBack.signedPulses {m : Movement} {s : Segment} (hplays : s.PlaysBack m)
    (axis : Axis) : s.signedPulses axis = (m.steps.get axis).toInt := by
  unfold Segment.signedPulses
  have hreversed := hplays.isReversed_iff axis
  rw [hplays.pulses axis]
  split
  next hset =>
    have hnegative := hreversed.mp hset
    omega
  next hclear =>
    have hnonnegative := mt hreversed.mpr hclear
    omega

/-- The distance of an axis from its start grows by the steps of each piece. -/
theorem Division.Covers.natAbs_steps {m : Movement} {count k : ℕ} {piece : Division}
    (hcovers : piece.Covers m count k) (hcount : 0 < count) (hsmall : count ≤ 2 ^ 31)
    (hk : k < count) (axis : Axis) :
    ((piece.movement.steps.get axis).toInt.natAbs : ℤ) =
      (exactPosition (m.steps.get axis).toInt count (k + 1)).natAbs -
        (exactPosition (m.steps.get axis).toInt count k).natAbs := by
  have hsteps := hcovers.steps axis
  rcases le_or_gt 0 (m.steps.get axis).toInt with hforward | hbackward
  · have hstart := exactPosition_mem_of_nonneg hcount hsmall hforward hk.le
    have hmove := exactPosition_le_succ hcount hforward k
    omega
  · have hstart := exactPosition_mem_of_neg hcount hsmall hbackward hk.le
    have hmove := exactPosition_succ_le hcount hsmall hbackward k
    omega

/-- Playing all segments of a plan makes the steps that were asked for, each of
them in the right direction. -/
theorem Plan.pulses_conserved {t : Timing} {m : Movement} {p : Plan}
    (hplan : (t.plan m).value = .ok p) (axis : Axis) :
    (p.segments.map fun entry => entry.value.pulses.get axis).sum =
        (m.steps.get axis).toInt.natAbs ∧
      (∀ entry ∈ p.segments, 0 < entry.value.pulses.get axis →
        (entry.value.isReversed axis = true ↔ (m.steps.get axis).toInt < 0)) ∧
      (p.segments.map fun entry => entry.value.signedPulses axis).sum =
        (m.steps.get axis).toInt := by
  have hcount := m.length_pieces_pos
  have hsmall := m.length_pieces_le
  have hend := exactPosition_count (m.steps.get axis).toInt hcount hsmall
  have hlength := Plan.length_segments hplan
  refine ⟨?_, ?_, ?_⟩
  · have hsum := sum_map_eq_sub (k := 0) (l := p.segments)
      (fun entry => (entry.value.pulses.get axis : ℤ))
      (fun k => (exactPosition (m.steps.get axis).toInt m.pieces.length k).natAbs)
      (by
        intro k entry hentry
        obtain ⟨piece, hpiece, -, hplays⟩ := Plan.exists_piece_of_segment hplan hentry
        have hk : k < m.pieces.length := (List.getElem?_eq_some_iff.mp hpiece).1
        have hpulses := hplays.pulses axis
        have hgrowth :=
          (Movement.covers_pieces hpiece).natAbs_steps hcount hsmall hk axis
        simp only [Nat.zero_add]
        omega)
    simp only [Nat.zero_add, hlength, hend, exactPosition_zero, Int.natAbs_zero,
      Nat.cast_zero, sub_zero] at hsum
    have hcast : (((p.segments.map fun entry => entry.value.pulses.get axis).sum : ℕ) : ℤ) =
        (p.segments.map fun entry => (entry.value.pulses.get axis : ℤ)).sum := by
      rw [Nat.cast_list_sum, List.map_map]
      rfl
    omega
  · intro entry hmem hpulse
    obtain ⟨k, hentry⟩ := List.mem_iff_getElem?.mp hmem
    obtain ⟨piece, hpiece, -, hplays⟩ := Plan.exists_piece_of_segment hplan hentry
    rw [hplays.pulses axis] at hpulse
    rw [hplays.isReversed_iff axis]
    exact (Movement.covers_pieces hpiece).neg_iff_of_ne_zero hcount hsmall (by omega)
  · have hsum := sum_map_eq_sub (k := 0) (l := p.segments)
      (fun entry => entry.value.signedPulses axis)
      (exactPosition (m.steps.get axis).toInt m.pieces.length)
      (by
        intro k entry hentry
        obtain ⟨piece, hpiece, -, hplays⟩ := Plan.exists_piece_of_segment hplan hentry
        rw [hplays.signedPulses axis, Nat.zero_add]
        exact (Movement.covers_pieces hpiece).steps axis)
    rw [hsum, Nat.zero_add, hlength, hend, exactPosition_zero, sub_zero]

/-- The lowest step count is played in full. -/
theorem Plan.pulses_conserved_of_lowest :
    ∃ p : Plan,
      (Timing.plan {} (.ofSteps [2147483647, -2147483648] 10 10 0)).value = .ok p ∧
        (p.segments.map fun entry => entry.value.pulses.get 1).sum = 2147483648 ∧
        (p.segments.map fun entry => entry.value.signedPulses 1).sum = -2147483648 := by
  refine ⟨_, rfl, ?_⟩
  obtain ⟨htotal, -, hsigned⟩ := Plan.pulses_conserved (t := {})
    (m := .ofSteps [2147483647, -2147483648] 10 10 0) rfl 1
  exact ⟨htotal, hsigned⟩

end PulseTrain
