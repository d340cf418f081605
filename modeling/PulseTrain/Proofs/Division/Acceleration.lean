import PulseTrain.Proofs.Plan.Capacity

/-!
# Acceleration without rounding

In exact arithmetic the square of the speed is a linear function of the distance,
and the acceleration is chosen for it to pass from the square of the entry speed to
that of the exit speed over the defining steps of the movement.  The divisions may
make more steps than that in all, since each of them counts the steps of its own
defining axis.  But only the last one passes the goal: before it there is one
division for every full capacity of a segment in the defining steps, and none makes
more steps than that.  So the squares never leave the interval between their ends,
and the last division changes the speed the same way as all others.
-/

namespace PulseTrain.Divisions

/-- The acceleration that changes the speed as asked over a distance. -/
def exactAcceleration (entry exit : ℚ) (distance : ℕ) : ℚ :=
  (exit ^ 2 - entry ^ 2) / (2 * distance)

/-- The square of the speed after some steps under a constant acceleration. -/
def squareAfter (acceleration square : ℚ) (steps : ℕ) : ℚ := square + 2 * acceleration * steps

/-- The squares of the speeds at both ends of all divisions.  Only the last division ends
at the speed that was asked for; the others follow the acceleration. -/
def exactSquares (entry exit : ℚ) (distance : ℕ) (divisions : List Division) : List ℚ :=
  divisions.dropLast.scanl
      (fun square division => squareAfter (exactAcceleration entry exit distance) square
        division.definingSteps.toNat) (entry ^ 2) ++
    [exit ^ 2]

/-- The distances at the starts of all divisions and at the goal. -/
def distances (goal : ℕ) (divisions : List Division) : List ℕ :=
  divisions.dropLast.scanl (fun distance division => distance + division.definingSteps.toNat) 0 ++
    [goal]

theorem scanl_squareAfter (acceleration square : ℚ) (start : ℕ) (divisions : List Division) :
    divisions.scanl (fun square division => squareAfter acceleration square
        division.definingSteps.toNat) (squareAfter acceleration square start) =
      (divisions.scanl (fun distance division => distance + division.definingSteps.toNat)
        start).map (squareAfter acceleration square) := by
  induction divisions generalizing start with
  | nil => rfl
  | cons division rest ih =>
      have hnext : squareAfter acceleration (squareAfter acceleration square start)
          division.definingSteps.toNat =
            squareAfter acceleration square (start + division.definingSteps.toNat) := by
        unfold squareAfter
        push_cast
        ring
      rw [List.scanl_cons, List.scanl_cons, List.map_cons, hnext, ih]

theorem squareAfter_zero (acceleration square : ℚ) :
    squareAfter acceleration square 0 = square := by
  simp [squareAfter]

theorem squareAfter_exactAcceleration (entry exit : ℚ) {distance : ℕ} (hdistance : 0 < distance) :
    squareAfter (exactAcceleration entry exit distance) (entry ^ 2) distance = exit ^ 2 := by
  have hdistanceRat : (distance : ℚ) ≠ 0 := by positivity
  unfold squareAfter exactAcceleration
  field_simp
  ring

theorem exactSquares_eq_map (entry exit : ℚ) {distance : ℕ} (hdistance : 0 < distance)
    (divisions : List Division) :
    exactSquares entry exit distance divisions =
      (distances distance divisions).map
        (squareAfter (exactAcceleration entry exit distance) (entry ^ 2)) := by
  have hstart := scanl_squareAfter (exactAcceleration entry exit distance) (entry ^ 2) 0
    divisions.dropLast
  rw [squareAfter_zero] at hstart
  rw [exactSquares, distances, List.map_append, List.map_singleton,
    squareAfter_exactAcceleration entry exit hdistance, hstart]

theorem squareAfter_monotone {entry exit : ℚ} (h : entry ^ 2 ≤ exit ^ 2) (distance : ℕ) :
    Monotone (squareAfter (exactAcceleration entry exit distance) (entry ^ 2)) := by
  intro near far hle
  have hfaster : 0 ≤ exactAcceleration entry exit distance :=
    div_nonneg (sub_nonneg.mpr h) (by positivity)
  unfold squareAfter
  gcongr

theorem squareAfter_antitone {entry exit : ℚ} (h : exit ^ 2 ≤ entry ^ 2) (distance : ℕ) :
    Antitone (squareAfter (exactAcceleration entry exit distance) (entry ^ 2)) := by
  intro near far hle
  have hslower : 2 * exactAcceleration entry exit distance ≤ 0 :=
    mul_nonpos_of_nonneg_of_nonpos zero_le_two
      (div_nonpos_of_nonpos_of_nonneg (sub_nonpos.mpr h) (by positivity))
  have hsteps : (near : ℚ) ≤ far := by exact_mod_cast hle
  unfold squareAfter
  linarith [mul_le_mul_of_nonpos_left hsteps hslower]

theorem squareAfter_mem_uIcc {entry exit : ℚ} {distance steps : ℕ} (hdistance : 0 < distance)
    (hsteps : steps ∈ Set.uIcc 0 distance) :
    squareAfter (exactAcceleration entry exit distance) (entry ^ 2) steps ∈
      Set.uIcc (entry ^ 2) (exit ^ 2) := by
  rcases le_total (entry ^ 2) (exit ^ 2) with hfaster | hslower
  · have himage := (squareAfter_monotone hfaster distance).image_uIcc_subset
      (Set.mem_image_of_mem _ hsteps)
    rwa [squareAfter_zero, squareAfter_exactAcceleration entry exit hdistance] at himage
  · have himage := (squareAfter_antitone hslower distance).image_uIcc_subset
      (Set.mem_image_of_mem _ hsteps)
    rwa [squareAfter_zero, squareAfter_exactAcceleration entry exit hdistance] at himage

/-! ## Distances -/

theorem isChain_scanl_append {divisions : List Division} {start goal : ℕ}
    (h : start + (divisions.map fun division => division.definingSteps.toNat).sum ≤ goal) :
    (divisions.scanl (fun distance division => distance + division.definingSteps.toNat) start ++
      [goal]).IsChain (· ≤ ·) := by
  induction divisions generalizing start with
  | nil => simpa using h
  | cons division rest ih =>
      rw [List.map_cons, List.sum_cons, ← Nat.add_assoc] at h
      rw [List.scanl_cons, List.cons_append, List.isChain_cons]
      refine ⟨fun next hnext => ?_, ih h⟩
      rw [List.head?_append, List.head?_scanl] at hnext
      cases hnext
      exact Nat.le_add_right start _

/-- All divisions but the last fit into the distance. -/
theorem sum_dropLast_le (m : Movement) :
    ((ofMovement m m.definingSteps).toList.dropLast.map fun division =>
      division.definingSteps.toNat).sum ≤ m.definingSteps.toNat := by
  have hsum := List.sum_le_card_nsmul
    ((ofMovement m m.definingSteps).toList.dropLast.map fun division =>
      division.definingSteps.toNat) 32767 (by
    intro steps hmem
    obtain ⟨division, hdivision, rfl⟩ := List.mem_map.mp hmem
    exact definingSteps_le_of_mem (List.mem_of_mem_dropLast hdivision))
  rw [List.length_map, List.length_dropLast, length_toList_ofMovement, toNat_divisionCount,
    Nat.add_sub_cancel, smul_eq_mul] at hsum
  exact hsum.trans (Nat.div_mul_le_self _ _)

theorem pairwise_distances (m : Movement) :
    (distances m.definingSteps.toNat (ofMovement m m.definingSteps).toList).Pairwise (· ≤ ·) := by
  rw [← List.isChain_iff_pairwise]
  apply isChain_scanl_append
  rw [Nat.zero_add]
  exact sum_dropLast_le m

theorem mem_uIcc_of_mem_distances {m : Movement} {distance : ℕ}
    (hmem : distance ∈ distances m.definingSteps.toNat (ofMovement m m.definingSteps).toList) :
    distance ∈ Set.uIcc 0 m.definingSteps.toNat := by
  rw [Set.uIcc_of_le (Nat.zero_le _)]
  refine ⟨Nat.zero_le _, ?_⟩
  rcases List.mem_append.mp hmem with hstart | hgoal
  · exact (List.pairwise_append.mp (pairwise_distances m)).2.2 _ hstart _
      (List.mem_singleton_self _)
  · exact (List.mem_singleton.mp hgoal).le

/-- Without rounding the squares of the speeds move from one end to the other and never turn
around, so none of them is negative. -/
theorem squares_monotone {m : Movement} {n : UInt32}
    (hn : IsGreatest (Set.range fun axis : Axis => (m.steps.get axis).toInt.natAbs) n.toNat)
    (hmoves : 1 ≤ n.toNat) (entry exit : ℚ) {squares : List ℚ}
    (hsquares : exactSquares entry exit n.toNat (ofMovement m n).toList = squares) :
    squares.length = (divisionCount n).toNat + 1 ∧
      squares.head? = some (entry ^ 2) ∧ squares.getLast? = some (exit ^ 2) ∧
      (entry ^ 2 ≤ exit ^ 2 → squares.Pairwise (· ≤ ·)) ∧
      (exit ^ 2 ≤ entry ^ 2 → squares.Pairwise (· ≥ ·)) ∧
      ∀ square ∈ squares, square ∈ Set.uIcc (entry ^ 2) (exit ^ 2) ∧ 0 ≤ square := by
  obtain rfl : n = m.definingSteps :=
    UInt32.toNat_inj.mp (hn.unique m.isGreatest_definingSteps)
  have hmap := exactSquares_eq_map entry exit hmoves (ofMovement m m.definingSteps).toList
  subst hsquares
  refine ⟨?_, ?_, ?_, fun hfaster => ?_, fun hslower => ?_, fun square hmem => ?_⟩
  · have hcount := divisionCount_pos m.definingSteps
    rw [exactSquares, List.length_append, List.length_singleton, List.length_scanl,
      List.length_dropLast, length_toList_ofMovement]
    omega
  · rw [exactSquares, List.head?_append, List.head?_scanl]
    rfl
  · rw [exactSquares, List.getLast?_concat]
  · rw [hmap, List.pairwise_map]
    exact (pairwise_distances m).imp fun hle => squareAfter_monotone hfaster _ hle
  · rw [hmap, List.pairwise_map]
    exact (pairwise_distances m).imp fun hle => squareAfter_antitone hslower _ hle
  · have hinside : square ∈ Set.uIcc (entry ^ 2) (exit ^ 2) := by
      rw [hmap, List.mem_map] at hmem
      obtain ⟨distance, hdistance, rfl⟩ := hmem
      exact squareAfter_mem_uIcc hmoves (mem_uIcc_of_mem_distances hdistance)
    exact ⟨hinside, (le_min (sq_nonneg entry) (sq_nonneg exit)).trans hinside.1⟩

/-- The axes of this stop take turns and make a step too many, but the last division
is still slowing down. -/
theorem squares_monotone_of_stop :
    ∃ squares, exactSquares 100 0 32769
        (ofMovement (.ofSteps [32769, -32769] 100 0 0) 32769).toList = squares ∧
      IsGreatest (Set.range fun axis : Axis =>
        ((Movement.ofSteps [32769, -32769] 100 0 0).steps.get axis).toInt.natAbs) 32769 ∧
      squares.length = 3 ∧ squares.Pairwise (· ≥ ·) ∧ ∀ square ∈ squares, 0 ≤ square := by
  have hgreatest : IsGreatest (Set.range fun axis : Axis =>
      ((Movement.ofSteps [32769, -32769] 100 0 0).steps.get axis).toInt.natAbs)
      (32769 : UInt32).toNat := Movement.isGreatest_definingSteps _
  obtain ⟨hlength, -, -, -, hslower, hinside⟩ :=
    squares_monotone hgreatest (by decide) 100 0 rfl
  exact ⟨_, rfl, hgreatest, hlength, hslower (by norm_num),
    fun square hmem => (hinside square hmem).2⟩

end PulseTrain.Divisions
