import PulseTrain.Proofs.Plan.Segments

/-!
# Distance covered by the pieces

Each piece of a movement has a defining axis of its own, and its segment lasts two
loops for every step of that axis.  Every axis covers its own distance exactly, so
the defining steps of all pieces add up to at least the defining steps of the
movement.  They add up to more as soon as the axes take turns: positions are
rounded down, so an axis may make its odd step in a division in which the axis
that moves furthest does not.

The acceleration of a divided movement is derived from the defining steps of the
movement and applied to those of the divisions, so the two sums decide together
how many loops are played and whether the acceleration fits the distance.
-/

namespace PulseTrain

/-! ## Sums over the pieces -/

theorem sum_map_eq_sum_map_iff {α : Type} {f g : α → ℕ} {l : List α}
    (hle : ∀ x ∈ l, f x ≤ g x) :
    (l.map f).sum = (l.map g).sum ↔ ∀ x ∈ l, f x = g x := by
  constructor
  · intro hsum x hmem
    by_contra hne
    have hlt := List.sum_lt_sum f g hle ⟨x, hmem, lt_of_le_of_ne (hle x hmem) hne⟩
    omega
  · intro heq
    rw [List.map_congr_left heq]

namespace Movement

theorem sum_natAbs_pieces (m : Movement) (axis : Axis) :
    (m.pieces.map fun piece => (piece.movement.steps.get axis).toInt.natAbs).sum =
      (m.steps.get axis).toInt.natAbs := by
  have hcount := m.length_pieces_pos
  have hsmall := m.length_pieces_le
  have hend := exactPosition_count (m.steps.get axis).toInt hcount hsmall
  have hsum := sum_map_eq_sub (k := 0) (l := m.pieces)
    (fun piece => ((piece.movement.steps.get axis).toInt.natAbs : ℤ))
    (fun k => (exactPosition (m.steps.get axis).toInt m.pieces.length k).natAbs)
    (by
      intro k piece hpiece
      have hk : k < m.pieces.length := (List.getElem?_eq_some_iff.mp hpiece).1
      rw [Nat.zero_add]
      exact (covers_pieces hpiece).natAbs_steps hcount hsmall hk axis)
  have hcast :
      (((m.pieces.map fun piece =>
        (piece.movement.steps.get axis).toInt.natAbs).sum : ℕ) : ℤ) =
        (m.pieces.map fun piece =>
          ((piece.movement.steps.get axis).toInt.natAbs : ℤ)).sum := by
    rw [Nat.cast_list_sum, List.map_map]
    rfl
  simp only [Nat.zero_add, hend, exactPosition_zero, Int.natAbs_zero, Nat.cast_zero,
    sub_zero] at hsum
  omega

theorem natAbs_le_definingSteps_of_mem {m : Movement} {piece : Division}
    (hmem : piece ∈ m.pieces) (axis : Axis) :
    (piece.movement.steps.get axis).toInt.natAbs ≤ piece.definingSteps.toNat := by
  obtain ⟨k, hpiece⟩ := List.mem_iff_getElem?.mp hmem
  rw [(covers_pieces hpiece).definingSteps]
  exact natAbs_le_largestMagnitude piece.movement.steps axis

/-- The defining steps of all pieces together. -/
def stepsOfPieces (m : Movement) : ℕ :=
  (m.pieces.map fun piece => piece.definingSteps.toNat).sum

theorem definingSteps_le_stepsOfPieces (m : Movement) :
    m.definingSteps.toNat ≤ m.stepsOfPieces := by
  obtain ⟨axis, haxis⟩ := exists_natAbs_eq_largestMagnitude m.steps
  have hdistance := m.sum_natAbs_pieces axis
  have hle := List.sum_le_sum (l := m.pieces)
    fun piece hmem => natAbs_le_definingSteps_of_mem hmem axis
  unfold definingSteps stepsOfPieces
  omega

/-- The pieces add nothing exactly if one axis defines all of them. -/
theorem stepsOfPieces_eq_iff (m : Movement) :
    m.stepsOfPieces = m.definingSteps.toNat ↔
      ∃ axis : Axis, (m.steps.get axis).toInt.natAbs = m.definingSteps.toNat ∧
        ∀ piece ∈ m.pieces,
          (piece.movement.steps.get axis).toInt.natAbs = piece.definingSteps.toNat := by
  have hequal : ∀ axis : Axis, m.stepsOfPieces = (m.steps.get axis).toInt.natAbs ↔
      ∀ piece ∈ m.pieces,
        (piece.movement.steps.get axis).toInt.natAbs = piece.definingSteps.toNat := by
    intro axis
    rw [← m.sum_natAbs_pieces axis, eq_comm]
    exact sum_map_eq_sum_map_iff fun piece hmem => natAbs_le_definingSteps_of_mem hmem axis
  constructor
  · intro hexact
    obtain ⟨axis, haxis⟩ := exists_natAbs_eq_largestMagnitude m.steps
    exact ⟨axis, haxis, (hequal axis).mp (hexact.trans haxis.symm)⟩
  · rintro ⟨axis, haxis, hdefines⟩
    rw [← haxis]
    exact (hequal axis).mpr hdefines

end Movement

/-! ## The excess is less than a step per piece -/

/-- An axis whose steps are a multiple of the number of divisions makes the same
number of steps in each. -/
theorem exactPosition_mul {count : ℕ} (hcount : 0 < count) (each : ℤ) {k : ℕ}
    (hk : k < 2 ^ 32) : exactPosition (each * count) count k = each * k := by
  have hcountInt : (count : ℤ) ≠ 0 := by omega
  have hshare : exactShare (each * count) count = each * 2 ^ 32 + 1 := by
    unfold exactShare
    rw [show each * count * 2 ^ 32 = each * 2 ^ 32 * count by ring,
      Int.mul_tdiv_cancel _ hcountInt]
  unfold exactPosition
  rw [hshare, show (k : ℤ) * (each * 2 ^ 32 + 1) = k + each * k * 2 ^ 32 by ring]
  omega

theorem Division.Covers.natAbs_le_of_le {m : Movement} {count k : ℕ} {piece : Division}
    (hcovers : piece.Covers m count k) (hcount : 0 < count) (hsmall : count ≤ 2 ^ 31)
    (hk : k < count) {axis : Axis} {bound : ℕ}
    (haverage : (m.steps.get axis).toInt.natAbs ≤ bound * count) :
    (piece.movement.steps.get axis).toInt.natAbs ≤ bound := by
  rcases haverage.lt_or_eq with hbelow | hequal
  · exact hcovers.natAbs_le hcount hsmall hbelow
  · have hsteps := hcovers.steps axis
    have hmultiple : ∃ each : ℤ, each.natAbs = bound ∧
        (m.steps.get axis).toInt = each * count := by
      rcases Int.natAbs_eq (m.steps.get axis).toInt with hforward | hbackward
      · exact ⟨bound, Int.natAbs_natCast bound, by rw [hforward, hequal]; push_cast; ring⟩
      · exact ⟨-bound, by omega, by rw [hbackward, hequal]; push_cast; ring⟩
    obtain ⟨each, heach, hmultiple⟩ := hmultiple
    rw [hmultiple, exactPosition_mul hcount each (by omega),
      exactPosition_mul hcount each (by omega)] at hsteps
    push_cast at hsteps
    rw [hsteps, show each * ((k : ℤ) + 1) - each * k = each by ring, heach]

namespace Movement

theorem stepsOfPieces_lt (m : Movement) :
    m.stepsOfPieces < m.definingSteps.toNat + m.pieces.length := by
  have hcount := m.length_pieces_pos
  have hsmall := m.length_pieces_le
  have hround := Nat.div_add_mod (m.definingSteps.toNat + m.pieces.length - 1) m.pieces.length
  have hbound : ∀ piece ∈ m.pieces, piece.definingSteps.toNat ≤
      (m.definingSteps.toNat + m.pieces.length - 1) / m.pieces.length := by
    intro piece hmem
    obtain ⟨k, hpiece⟩ := List.mem_iff_getElem?.mp hmem
    have hcovers := covers_pieces hpiece
    rw [hcovers.definingSteps, largestMagnitude_le_iff]
    intro axis
    apply hcovers.natAbs_le_of_le hcount hsmall (List.getElem?_eq_some_iff.mp hpiece).1
    have hmost := natAbs_le_largestMagnitude m.steps axis
    have hremainder := Nat.mod_lt (m.definingSteps.toNat + m.pieces.length - 1) hcount
    rw [Nat.mul_comm] at hround
    unfold definingSteps at hround hremainder ⊢
    omega
  have hsum := List.sum_le_card_nsmul
    (m.pieces.map fun piece => piece.definingSteps.toNat) _
    (by simpa using hbound)
  rw [List.length_map, smul_eq_mul] at hsum
  unfold stepsOfPieces
  omega

end Movement

/-! ## Loops and acceleration of a divided movement -/

theorem Movement.pieces_eq_toList {m : Movement} (hlong : 32767 < m.definingSteps.toNat) :
    m.pieces = (Divisions.ofMovement m m.definingSteps).toList := by
  have hnot : ¬ m.definingSteps ≤ stepsPerSegment := by
    rw [UInt32.le_iff_toNat_le]
    exact Nat.not_le.mpr hlong
  unfold pieces
  rw [if_neg hnot]

/-- Every step of a piece's defining axis takes two loops. -/
theorem Plan.sum_loops {t : Timing} {m : Movement} {p : Plan}
    (hplan : (t.plan m).value = .ok p) :
    (p.segments.map fun entry => entry.value.loops.toNat).sum = 2 * m.stepsOfPieces := by
  have hmoves := (Timing.plan_eq_ok hplan).1
  have hloops : ∀ piece ∈ m.pieces,
      (t.synthesize piece.movement piece.definingSteps).value.loops.toNat =
        2 * piece.definingSteps.toNat := by
    intro piece hmem
    obtain ⟨k, hpiece⟩ := List.mem_iff_getElem?.mp hmem
    have hown : piece.definingSteps = piece.movement.definingSteps :=
      (Movement.covers_pieces hpiece).definingSteps
    rw [(Movement.playsBack_of_piece t hmoves hpiece).loops, hown]
  rw [Plan.segments_of_plan hplan, List.map_map, Movement.stepsOfPieces,
    ← List.sum_map_mul_left]
  exact congrArg List.sum (List.map_congr_left hloops)

/-- The square of a speed that changes at the rate made for `distance` steps
arrives at its goal after `total` steps only if the two agree. -/
theorem square_reached_iff {entry exit : ℚ} (hchange : entry ^ 2 ≠ exit ^ 2) {distance : ℕ}
    (hdistance : 0 < distance) (total : ℕ) :
    entry ^ 2 + 2 * ((exit ^ 2 - entry ^ 2) / (2 * distance)) * total = exit ^ 2 ↔
      total = distance := by
  have hdistanceRat : (distance : ℚ) ≠ 0 := by positivity
  have hchangeRat : exit ^ 2 - entry ^ 2 ≠ 0 := sub_ne_zero.mpr hchange.symm
  have hmissing : entry ^ 2 + 2 * ((exit ^ 2 - entry ^ 2) / (2 * distance)) * total - exit ^ 2 =
      (exit ^ 2 - entry ^ 2) * ((total - distance) / distance) := by
    field_simp
    ring
  rw [← sub_eq_zero, hmissing, mul_eq_zero, or_iff_right hchangeRat, div_eq_zero_iff,
    or_iff_left hdistanceRat, sub_eq_zero, Nat.cast_inj]

/-- A divided movement is played in twice as many loops as its defining steps, and
its acceleration fits the distance, exactly if one axis makes the most steps in
every division.  Otherwise some loops are added, fewer than two per division. -/
theorem Plan.loops_exact_iff {t : Timing} {m : Movement} {p : Plan} {n total : ℕ}
    (hplan : (t.plan m).value = .ok p)
    (hn : IsGreatest (Set.range fun axis : Axis => (m.steps.get axis).toInt.natAbs) n)
    (hlong : 32767 < n)
    (htotal : ((Divisions.ofMovement m m.definingSteps).toList.map
      fun division => division.definingSteps.toNat).sum = total) :
    n ≤ total ∧ total < n + p.segments.length ∧
      (p.segments.map fun entry => entry.value.loops.toNat).sum = 2 * total ∧
      (total = n ↔
        ∃ axis : Axis, (m.steps.get axis).toInt.natAbs = n ∧
          ∀ division ∈ (Divisions.ofMovement m m.definingSteps).toList,
            (division.movement.steps.get axis).toInt.natAbs =
              division.definingSteps.toNat) ∧
      ∀ entry exit : ℚ, entry ^ 2 ≠ exit ^ 2 →
        (entry ^ 2 + 2 * ((exit ^ 2 - entry ^ 2) / (2 * n)) * total = exit ^ 2 ↔
          total = n) := by
  obtain rfl : n = m.definingSteps.toNat := hn.unique m.isGreatest_definingSteps
  have hpieces := Movement.pieces_eq_toList hlong
  rw [← hpieces] at htotal ⊢
  obtain rfl : m.stepsOfPieces = total := htotal
  refine ⟨m.definingSteps_le_stepsOfPieces, ?_, Plan.sum_loops hplan, m.stepsOfPieces_eq_iff, ?_⟩
  · rw [Plan.length_segments hplan]
    exact m.stepsOfPieces_lt
  · intro entry exit hchange
    exact square_reached_iff hchange (by omega) m.stepsOfPieces

/-- One long axis defines all four divisions. -/
theorem Plan.loops_exact_of_one_long_axis :
    ∃ p : Plan,
      (Timing.plan {} (.ofSteps [100000, -77777, 3] 0 100 7)).value = .ok p ∧
        (p.segments.map fun entry => entry.value.loops.toNat).sum = 200000 := by
  have hgreatest : IsGreatest (Set.range fun axis : Axis =>
      ((Movement.ofSteps [100000, -77777, 3] 0 100 7).steps.get axis).toInt.natAbs)
      100000 := Movement.isGreatest_definingSteps _
  have htotal : ((Divisions.ofMovement (.ofSteps [100000, -77777, 3] 0 100 7)
      100000).toList.map fun division => division.definingSteps.toNat).sum = 100000 := by
    rw [Divisions.toList_of_next?_eq_some rfl, Divisions.toList_of_next?_eq_some rfl,
      Divisions.toList_of_next?_eq_some rfl, Divisions.toList_of_next?_eq_some rfl,
      Divisions.toList_of_next?_eq_none rfl]
    decide +kernel
  obtain ⟨-, -, hloops, -⟩ := Plan.loops_exact_iff (t := {}) rfl hgreatest (by omega) htotal
  exact ⟨_, rfl, hloops⟩

/-- Two axes of one length that move opposite ways take turns: each is the longer
one in one of the two divisions. -/
theorem Plan.loops_exceed_distance :
    ∃ p : Plan,
      (Timing.plan {} (.ofSteps [32769, -32769] 100 0 0)).value = .ok p ∧
        IsGreatest (Set.range fun axis : Axis =>
          ((Movement.ofSteps [32769, -32769] 100 0 0).steps.get axis).toInt.natAbs) 32769 ∧
        ((Divisions.ofMovement (.ofSteps [32769, -32769] 100 0 0) 32769).toList.map
          fun division => division.definingSteps.toNat).sum = 32770 ∧
        (p.segments.map fun entry => entry.value.loops.toNat).sum = 2 * 32770 ∧
        (100 : ℚ) ^ 2 + 2 * ((0 ^ 2 - 100 ^ 2) / (2 * 32769)) * 32770 ≠ 0 ^ 2 := by
  have htotal : ((Divisions.ofMovement (.ofSteps [32769, -32769] 100 0 0) 32769).toList.map
      fun division => division.definingSteps.toNat).sum = 32770 := by
    rw [Divisions.toList_of_next?_eq_some rfl, Divisions.toList_of_next?_eq_some rfl,
      Divisions.toList_of_next?_eq_none rfl]
    decide +kernel
  refine ⟨_, rfl, Movement.isGreatest_definingSteps _, htotal, ?_, by norm_num⟩
  rw [Plan.sum_loops (t := {}) (m := .ofSteps [32769, -32769] 100 0 0) rfl, ← htotal,
    Movement.stepsOfPieces, Movement.pieces_eq_toList (by decide)]
  rfl

end PulseTrain
