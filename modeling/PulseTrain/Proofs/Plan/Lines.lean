import PulseTrain.Proofs.Plan.Distance
import PulseTrain.Proofs.Playback.Loops

/-!
# Step lines over a whole run

All segments of a run drive the same eight lines.  Within a segment every line
rises once for every step of its axis.  Two segments in a row can lose a step: a
truncated fraction puts the last fall of a line past the last loop, so the line
is left high, and the defining axis of the next segment is high from the first
loop on, so its first step does not raise the line again.

The count over a whole run is therefore exact up to these lost steps, and they
can be read off the pieces: an axis is left high where the defining steps do not
divide its steps as a fraction of `2 ^ 31`, and starts high where it defines the
piece.
-/

namespace PulseTrain

/-! ## The lines in one segment -/

namespace Division

/-- The line of the axis is high from the first loop of the piece on. -/
def startsHigh (piece : Division) (axis : Axis) : Bool :=
  decide ((piece.movement.steps.get axis).toInt.natAbs = piece.definingSteps.toNat)

/-- The line of the axis is high after the last loop of the piece. -/
def endsHigh (piece : Division) (axis : Axis) : Bool :=
  decide (¬ piece.definingSteps.toNat ∣ (piece.movement.steps.get axis).toInt.natAbs * 2 ^ 31)

end Division

theorem lineChanges_fraction_one_odd_iff {steps : Int32} {definingSteps : UInt32}
    (hpos : 0 < definingSteps.toNat) (hle : steps.toInt.natAbs ≤ definingSteps.toNat) :
    lineChanges (fraction steps definingSteps) (0 + 1) % 2 = 1 ↔
      steps.toInt.natAbs = definingSteps.toNat := by
  have hfraction := toNat_fraction_le hle
  have hfull : 2 ^ 31 ≤ (fraction steps definingSteps).toNat ↔
      definingSteps.toNat ≤ steps.toInt.natAbs := by
    rw [toNat_fraction hle, Nat.le_div_iff_mul_le hpos, Nat.mul_comm]
    exact Nat.mul_le_mul_right_iff (by omega)
  unfold lineChanges
  omega

/-- The last change of a line is lost exactly where the fraction was truncated. -/
theorem lineChanges_fraction_last_odd_iff {steps : Int32} {definingSteps : UInt32}
    (hpos : 0 < definingSteps.toNat) (hfits : definingSteps.toNat ≤ 32767)
    (hle : steps.toInt.natAbs ≤ definingSteps.toNat) :
    lineChanges (fraction steps definingSteps) (2 * definingSteps.toNat) % 2 = 1 ↔
      ¬ definingSteps.toNat ∣ steps.toInt.natAbs * 2 ^ 31 := by
  have hdivision := Nat.div_add_mod (steps.toInt.natAbs * 2 ^ 31) definingSteps.toNat
  have hremainder := Nat.mod_lt (steps.toInt.natAbs * 2 ^ 31) hpos
  unfold lineChanges
  rw [toNat_fraction hle, Nat.mul_assoc, Nat.dvd_iff_mod_eq_zero]
  omega

/-- How the lines move in the segment of a piece. -/
structure Segment.Drives (piece : Division) (s : Segment) : Prop where
  rises : ∀ axis : Axis, rises false (s.lineLevels axis) =
    (piece.movement.steps.get axis).toInt.natAbs
  first : ∀ axis : Axis, (s.lineLevels axis).head? = some (piece.startsHigh axis)
  last : ∀ axis : Axis, (s.lineLevels axis).getLast? = some (piece.endsHigh axis)

theorem Timing.drives_synthesize (t : Timing) {piece : Division}
    (hown : piece.definingSteps = piece.movement.definingSteps)
    (hpos : 0 < piece.definingSteps.toNat) (hfits : piece.definingSteps.toNat ≤ 32767) :
    (t.synthesize piece.movement piece.definingSteps).value.Drives piece := by
  have hplays : (t.synthesize piece.movement piece.definingSteps).value.PlaysBack
      piece.movement := by
    rw [hown] at hpos hfits ⊢
    exact t.playsBack_synthesize hpos hfits
  have hfraction : ∀ axis : Axis,
      (t.synthesize piece.movement piece.definingSteps).value.fractions.get axis =
        fraction (piece.movement.steps.get axis) piece.definingSteps :=
    fun axis => Axes.get_map _ piece.movement.steps axis
  have hmost : ∀ axis : Axis, (piece.movement.steps.get axis).toInt.natAbs ≤
      piece.definingSteps.toNat := by
    rw [hown]
    exact natAbs_le_largestMagnitude piece.movement.steps
  have hloops := hplays.loops
  rw [← hown] at hloops
  constructor
  · intro axis
    rw [Segment.rises_lineLevels (hplays.fraction_le axis), hplays.pulses axis]
  · intro axis
    rw [Segment.lineLevels_eq_map, hloops, List.head?_map, hfraction axis,
      List.head?_range, if_neg (by omega), Option.map_some, Division.startsHigh,
      Option.some_inj, decide_eq_decide]
    exact lineChanges_fraction_one_odd_iff hpos (hmost axis)
  · intro axis
    rw [Segment.lineLevels_eq_map, hloops, List.getLast?_map, hfraction axis,
      List.getLast?_range, if_neg (by omega), Option.map_some, Division.endsHigh,
      Option.some_inj, decide_eq_decide, Nat.sub_add_cancel (by omega)]
    exact lineChanges_fraction_last_odd_iff hpos hfits (hmost axis)

/-! ## The lines over a run -/

/-- Steps of the axis that do not raise its line, because the piece before left it
high.  The line is at the level `before` when the first piece starts. -/
def mergedSteps (axis : Axis) (before : Bool) : List Division → ℕ
  | [] => 0
  | piece :: later =>
      (if before && piece.startsHigh axis then 1 else 0) +
        mergedSteps axis (piece.endsHigh axis) later

theorem mergedSteps_eq_zero_iff (axis : Axis) (pieces : List Division) :
    mergedSteps axis false pieces = 0 ↔
      pieces.IsChain fun piece next => ¬ (piece.endsHigh axis ∧ next.startsHigh axis) := by
  have hfrom : ∀ (before : Bool) (piece : Division) (later : List Division),
      mergedSteps axis before (piece :: later) = 0 ↔
        ¬ (before ∧ piece.startsHigh axis) ∧ (piece :: later).IsChain
          fun piece next => ¬ (piece.endsHigh axis ∧ next.startsHigh axis) := by
    intro before piece later
    induction later generalizing before piece with
    | nil => simp [mergedSteps]
    | cons next later ih =>
        rw [mergedSteps, Nat.add_eq_zero_iff, ih, List.isChain_cons_cons]
        simp
  cases pieces with
  | nil => simp [mergedSteps]
  | cons piece later => simpa using hfrom false piece later

theorem rises_flatMap_add_mergedSteps {segments : List Segment} {pieces : List Division}
    (hdrives : List.Forall₂ (fun s piece => s.Drives piece) segments pieces) (axis : Axis)
    (before : Bool) :
    rises before (segments.flatMap fun s => s.lineLevels axis) +
        mergedSteps axis before pieces =
      (pieces.map fun piece => (piece.movement.steps.get axis).toInt.natAbs).sum := by
  induction hdrives generalizing before with
  | nil => rfl
  | @cons s piece segments pieces hfirst hlater ih =>
      have hlevels := rises_add_eq before (s.lineLevels axis)
      rw [hfirst.first axis, hfirst.rises axis, Option.getD_some] at hlevels
      have hrest := ih (piece.endsHigh axis)
      rw [List.flatMap_cons, rises_append, hfirst.last axis, Option.getD_some, mergedSteps,
        List.map_cons, List.sum_cons]
      omega

theorem Plan.forall₂_drives {t : Timing} {m : Movement} {p : Plan}
    (hplan : (t.plan m).value = .ok p) :
    List.Forall₂ (fun s piece => s.Drives piece) (p.segments.map Logged.value) m.pieces := by
  have hmoves := (Timing.plan_eq_ok hplan).1
  rw [Plan.segments_of_plan hplan, List.map_map, List.forall₂_map_left_iff,
    List.forall₂_same]
  intro piece hmem
  obtain ⟨k, hpiece⟩ := List.mem_iff_getElem?.mp hmem
  exact t.drives_synthesize (Movement.covers_pieces hpiece).definingSteps
    (Movement.definingSteps_pos_of_piece hmoves hpiece)
    (Movement.definingSteps_le_of_piece hpiece)

theorem sum_natAbs_flatMap_pieces (movements : List Movement) (axis : Axis) :
    ((movements.flatMap Movement.pieces).map fun piece =>
        (piece.movement.steps.get axis).toInt.natAbs).sum =
      (movements.map fun m => (m.steps.get axis).toInt.natAbs).sum := by
  induction movements with
  | nil => rfl
  | cons m later ih =>
      rw [List.flatMap_cons, List.map_append, List.sum_append, ih, List.map_cons,
        List.sum_cons, m.sum_natAbs_pieces axis]

/-- The level of the line of an axis after each loop of a whole plan. -/
def Plan.lineLevels (p : Plan) (axis : Axis) : List Bool :=
  p.segments.flatMap fun entry => entry.value.lineLevels axis

theorem Plan.rises_lineLevels_add_mergedSteps (requests : List (Movement × Plan))
    (hplans : ∀ request ∈ requests, ∃ t : Timing, (t.plan request.1).value = .ok request.2)
    (axis : Axis) :
    rises false (requests.flatMap fun request => request.2.lineLevels axis) +
        mergedSteps axis false (requests.flatMap fun request => request.1.pieces) =
      (requests.map fun request => (request.1.steps.get axis).toInt.natAbs).sum := by
  have hdrives : List.Forall₂ (fun s piece => s.Drives piece)
      (requests.flatMap fun request => request.2.segments.map Logged.value)
      (requests.flatMap fun request => request.1.pieces) := by
    induction requests with
    | nil => exact .nil
    | cons request later ih =>
        obtain ⟨t, hplan⟩ := hplans request List.mem_cons_self
        have hlater := ih fun other hmem => hplans other (List.mem_cons_of_mem request hmem)
        exact List.rel_append (Plan.forall₂_drives hplan) hlater
  have hlevels : (requests.flatMap fun request => request.2.lineLevels axis) =
      (requests.flatMap fun request => request.2.segments.map Logged.value).flatMap
        fun s => s.lineLevels axis := by
    rw [List.flatMap_assoc]
    apply List.flatMap_congr
    intro request _
    rw [List.flatMap_map]
    rfl
  have hsum := sum_natAbs_flatMap_pieces (requests.map Prod.fst) axis
  rw [List.flatMap_map, List.map_map] at hsum
  rw [hlevels, rises_flatMap_add_mergedSteps hdrives axis false]
  exact hsum

/-- Over any accepted requests, played one after another, a line misses exactly
the steps that are merged, so it rises once for every step if and only if no piece
that leaves it high is followed by a piece that its axis defines. -/
theorem Plan.line_rises_per_step_iff (requests : List (Movement × Plan))
    (hplans : ∀ request ∈ requests, ∃ t : Timing, (t.plan request.1).value = .ok request.2)
    (axis : Axis) :
    rises false (requests.flatMap fun request => request.2.lineLevels axis) +
          mergedSteps axis false (requests.flatMap fun request => request.1.pieces) =
        (requests.map fun request => (request.1.steps.get axis).toInt.natAbs).sum ∧
      (rises false (requests.flatMap fun request => request.2.lineLevels axis) =
          (requests.map fun request => (request.1.steps.get axis).toInt.natAbs).sum ↔
        (requests.flatMap fun request => request.1.pieces).IsChain
          fun piece next => ¬ (piece.endsHigh axis ∧ next.startsHigh axis)) := by
  have hcount := Plan.rises_lineLevels_add_mergedSteps requests hplans axis
  refine ⟨hcount, ?_⟩
  rw [← mergedSteps_eq_zero_iff]
  omega

/-- Two requests that lose a step where they meet: the first leaves the line of the
second axis high and the second starts it high. -/
theorem Plan.line_rises_per_step_iff_of_two_requests :
    ∃ first second : Plan,
      (Timing.plan {} (.ofSteps [3, -1] 10 10 0)).value = .ok first ∧
        (Timing.plan {} (.ofSteps [0, 5] 10 10 0)).value = .ok second ∧
        rises false (first.lineLevels 1 ++ second.lineLevels 1) + 1 = 1 + 5 := by
  obtain ⟨first, hfirst⟩ : ∃ p : Plan,
      (Timing.plan {} (.ofSteps [3, -1] 10 10 0)).value = .ok p := ⟨_, rfl⟩
  obtain ⟨second, hsecond⟩ : ∃ p : Plan,
      (Timing.plan {} (.ofSteps [0, 5] 10 10 0)).value = .ok p := ⟨_, rfl⟩
  refine ⟨first, second, hfirst, hsecond, ?_⟩
  have hmerged : mergedSteps 1 false ((Movement.ofSteps [3, -1] 10 10 0).pieces ++
      (Movement.ofSteps [0, 5] 10 10 0).pieces) = 1 := by
    decide +kernel
  have hcount := (Plan.line_rises_per_step_iff
    [(.ofSteps [3, -1] 10 10 0, first), (.ofSteps [0, 5] 10 10 0, second)]
    (by simpa using ⟨⟨_, hfirst⟩, ⟨_, hsecond⟩⟩) 1).1
  simp only [List.flatMap_cons, List.flatMap_nil, List.append_nil, hmerged] at hcount
  exact hcount

/-- A single long request on two axes of one length loses a step between its two
divisions. -/
theorem Plan.step_lost_between_divisions :
    ∃ p : Plan,
      (Timing.plan {} (.ofSteps [32769, -32769] 100 100 0)).value = .ok p ∧
        ((Movement.ofSteps [32769, -32769] 100 100 0).steps.get 0).toInt.natAbs = 32769 ∧
        rises false (p.lineLevels 0) = 32768 := by
  obtain ⟨p, hplan⟩ : ∃ p : Plan,
      (Timing.plan {} (.ofSteps [32769, -32769] 100 100 0)).value = .ok p := ⟨_, rfl⟩
  refine ⟨p, hplan, rfl, ?_⟩
  have hmerged :
      mergedSteps 0 false (Movement.ofSteps [32769, -32769] 100 100 0).pieces = 1 := by
    rw [Movement.pieces_eq_toList (by decide), Divisions.toList_of_next?_eq_some rfl,
      Divisions.toList_of_next?_eq_some rfl, Divisions.toList_of_next?_eq_none rfl]
    decide +kernel
  have hsteps :
      ((Movement.ofSteps [32769, -32769] 100 100 0).steps.get 0).toInt.natAbs = 32769 := rfl
  have hcount := Plan.rises_lineLevels_add_mergedSteps
    [(.ofSteps [32769, -32769] 100 100 0, p)] (by simpa using ⟨_, hplan⟩) 0
  simp only [List.flatMap_cons, List.flatMap_nil, List.append_nil, hmerged, List.map_cons,
    List.map_nil, List.sum_singleton, hsteps] at hcount
  omega

end PulseTrain
