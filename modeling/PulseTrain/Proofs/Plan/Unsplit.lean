import PulseTrain.Proofs.Division.Continuity

/-!
# Movements that need no division

A movement that fits is played as it is, but it could as well have been divided.  If its
only division is the whole movement, that division gives everything back: the share of
an axis in fixed point is its steps and one unit more, which the whole part leaves out
again, and every single precision speed survives the detour through double precision,
the sign of a zero included.

There is one division more than the capacity of a segment goes into the defining steps,
so a movement of exactly that many steps fits and would be halved all the same.
-/

namespace PulseTrain

theorem divisionCount_eq_one_iff (definingSteps : UInt32) :
    divisionCount definingSteps = 1 ↔ definingSteps.toNat < 32767 := by
  rw [← UInt32.toNat_inj, toNat_divisionCount, UInt32.toNat_one]
  omega

/-- The only division covers the whole way. -/
theorem Division.Covers.steps_eq {m : Movement} {division : Division}
    (hcovers : division.Covers m 1 0) : division.movement.steps = m.steps := by
  apply Vector.ext
  intro i hi
  have haxis := hcovers.steps ⟨i, hi⟩
  rw [exactPosition_single] at haxis
  exact Int32.toInt_inj.mp haxis

theorem Division.eq_whole {m : Movement} {division : Division}
    (hcovers : division.Covers m 1 0)
    (hentry : division.movement.entrySpeed = m.entrySpeed)
    (hexit : division.movement.exitSpeed = m.exitSpeed) :
    division = ⟨m, m.definingSteps⟩ := by
  have hmovement : division.movement = m := by
    rw [Movement.mk.injEq]
    exact ⟨hcovers.steps_eq, hentry, hexit, hcovers.outputs⟩
  have hdefining : division.definingSteps = m.definingSteps := by
    rw [hcovers.definingSteps, hmovement]
    rfl
  rw [Division.mk.injEq]
  exact ⟨hmovement, hdefining⟩

theorem Divisions.toList_of_single {m : Movement} (hspeeds : m.checkSpeeds = .ok ())
    (hone : divisionCount m.definingSteps = 1) :
    (ofMovement m m.definingSteps).toList = [⟨m, m.definingSteps⟩] := by
  obtain ⟨hentry, hexit⟩ := Movement.checkSpeeds_eq_ok_iff.mp hspeeds
  have hlength : (ofMovement m m.definingSteps).toList.length = 1 := by
    rw [length_toList_ofMovement, hone]
    rfl
  obtain ⟨division, hdivision⟩ := List.length_eq_one_iff.mp hlength
  have hfirst : (ofMovement m m.definingSteps).toList[0]? = some division := by
    simp [hdivision]
  have hcovers := covers_ofMovement hfirst
  rw [hone, UInt32.toNat_one] at hcovers
  have hstart : division.movement.entrySpeed = m.entrySpeed := by
    rw [entrySpeed_of_head? (d := ofMovement m m.definingSteps) (by simp [hdivision])]
    exact Single.narrow_widen (Movement.speedIsValid_iff.mp hentry).1
  have hend : division.movement.exitSpeed = m.exitSpeed := by
    rw [exitSpeed_of_getLast? (d := ofMovement m m.definingSteps) (by simp [hdivision])]
    exact Single.narrow_widen (Movement.speedIsValid_iff.mp hexit).1
  rw [hdivision, Division.eq_whole hcovers hstart hend]

/-- Where one division would do, the plan that skips it and the plan that makes it have
the same single segment and report the same events for it. -/
theorem Plan.unsplit_eq_split {t : Timing} {m : Movement} {p : Plan}
    (hplan : (t.plan m).value = .ok p) (hone : divisionCount m.definingSteps = 1) :
    (∃ division : Division,
      (Divisions.ofMovement m m.definingSteps).toList = [division] ∧
        division.movement = m ∧ division.definingSteps = m.definingSteps ∧
        p.segments = [t.synthesize division.movement division.definingSteps]) ∧
      p.isSplit = false ∧
      p.segments = (Plan.mk t (.split (.ofMovement m m.definingSteps))).segments := by
  obtain ⟨hmoves, hspeeds, -, -⟩ := Timing.plan_eq_ok hplan
  have hshort := (divisionCount_eq_one_iff m.definingSteps).mp hone
  have hfits : m.definingSteps ≤ stepsPerSegment :=
    UInt32.le_iff_toNat_le.mpr hshort.le
  have hdivisions := Divisions.toList_of_single hspeeds hone
  have hsegments := Plan.segments_of_fits hplan hfits
  refine ⟨⟨_, hdivisions, rfl, rfl, hsegments⟩, ?_, ?_⟩
  · rw [t.plan_of_fits hmoves hspeeds hfits] at hplan
    cases hplan
    rfl
  · have hsplit : (Pending.split (.ofMovement m m.definingSteps)).pieces =
        [⟨m, m.definingSteps⟩] := hdivisions
    rw [hsegments, Plan.segments_eq_map (by simp [hsplit, hmoves])]
    simp [hsplit]

/-- The longest movement of one division, starting from minus zero. -/
theorem Plan.unsplit_eq_split_of_longest :
    ∃ p : Plan,
      (Timing.plan {} (.ofSteps [32766, -32766, -1] (-0) 0.1 7)).value = .ok p ∧
        divisionCount (Movement.ofSteps [32766, -32766, -1] (-0) 0.1 7).definingSteps = 1 ∧
        p.segments = (Plan.mk {} (.split (.ofMovement
          (.ofSteps [32766, -32766, -1] (-0) 0.1 7) 32766))).segments := by
  have hone : divisionCount
      (Movement.ofSteps [32766, -32766, -1] (-0) 0.1 7).definingSteps = 1 := rfl
  obtain ⟨p, hplan⟩ : ∃ p : Plan,
      (Timing.plan {} (.ofSteps [32766, -32766, -1] (-0) 0.1 7)).value = .ok p := ⟨_, rfl⟩
  exact ⟨p, hplan, hone, (Plan.unsplit_eq_split hplan hone).2.2⟩

end PulseTrain
