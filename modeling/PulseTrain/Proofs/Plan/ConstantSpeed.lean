import PulseTrain.Proofs.Division.Continuity
import PulseTrain.Proofs.Plan.Refusal
import PulseTrain.Proofs.Timing.Delays

/-!
# Constant speed

A movement whose speed is the same at both ends has no acceleration, and the exit
speed of every division is computed anew from the square of its entry speed.  The
square of a single precision number fits into double precision, nothing is added to
it, and the root of an exact square is exact, so no division changes the speed.

Whether a piece is a travel is decided by the squares in single precision.  They may
overflow or vanish, but they are the same number, and it is not an indeterminate one.
-/

namespace PulseTrain

open Double (HasValue)

/-! ## Divisions -/

namespace Divisions

/-- The speed is `v` and will not change any more. -/
structure Steady (v : ℝ) (d : Divisions) : Prop where
  speed : HasValue d.speed v
  acceleration : HasValue d.acceleration 0
  finalSpeed : HasValue d.finalSpeed v

theorem hasValue_speedAfter_of_no_acceleration {d : Divisions} {v : ℝ}
    (hspeed : HasValue d.speed v) (hacceleration : HasValue d.acceleration 0)
    (hrepresentable : Double.Representable (v * v)) (hnonneg : 0 ≤ v) (steps : UInt32) :
    HasValue (d.speedAfter steps) v := by
  have hzero : Double.Representable 0 := Double.hasValue_zero.representable
  have hgain : HasValue (2 * d.acceleration * steps.toFloat) 0 := by
    have hdouble := Double.hasValue_two.mul_exact hacceleration (by rwa [mul_zero])
    have hproduct := hdouble.mul_exact (Double.hasValue_toFloat steps)
      (by rwa [mul_zero, zero_mul])
    rwa [mul_zero, zero_mul] at hproduct
  have hsquare := hspeed.mul_exact hspeed hrepresentable
  have hsum := hsquare.add_exact hgain (by rwa [add_zero])
  rw [add_zero] at hsum
  unfold speedAfter
  extract_lets square
  rcases hnonneg.eq_or_lt with rfl | hpos
  · have hnot : ¬0 < square := fun h => (hsum.pos h).ne' (mul_zero 0)
    rw [if_neg hnot]
    exact Double.hasValue_zero
  · have hroot : √(v * v) = v := Real.sqrt_mul_self hnonneg
    have hsumpos : 0 < v * v := mul_pos hpos hpos
    have hresult := hsum.sqrt_exact hsumpos (by rw [hroot]; exact hspeed.representable)
    rw [hroot] at hresult
    rwa [if_pos (hsum.lt_of_pos hsumpos)]

theorem Steady.next {v : ℝ} {d rest : Divisions} {division : Division} (h : d.Steady v)
    (hrepresentable : Double.Representable (v * v)) (hnonneg : 0 ≤ v)
    (hnext : d.next? = some (division, rest)) : rest.Steady v := by
  obtain ⟨-, hlast, hacceleration, hfinal⟩ := exitSpeed_next? hnext
  refine ⟨?_, hacceleration ▸ h.acceleration, hfinal ▸ h.finalSpeed⟩
  by_cases hend : rest.remaining = 0
  · rw [hlast hend]
    exact h.finalSpeed
  · rw [(speed_next? hnext).2 hend]
    exact hasValue_speedAfter_of_no_acceleration h.speed h.acceleration hrepresentable hnonneg _

theorem Steady.speeds_of_mem {v : ℝ} {x : Float32} {d : Divisions} {division : Division}
    (h : d.Steady v) (hx : Single.HasValue x v) (hnonneg : 0 ≤ v) (hmem : division ∈ d.toList) :
    Single.HasValue division.movement.entrySpeed v ∧
      Single.HasValue division.movement.exitSpeed v := by
  match hnext : d.next? with
  | none =>
    rw [toList_of_next?_eq_none hnext] at hmem
    cases hmem
  | some (first, rest) =>
    have hlt := remaining_lt hnext
    have hrest := h.next hx.representable_mul_self hnonneg hnext
    rw [toList_of_next?_eq_some hnext, List.mem_cons] at hmem
    rcases hmem with rfl | hlater
    · rw [(speed_next? hnext).1, (exitSpeed_next? hnext).1]
      exact ⟨hx.narrow h.speed, hx.narrow hrest.speed⟩
    · exact hrest.speeds_of_mem hx hnonneg hlater
termination_by d.remaining.toNat

theorem steady_ofMovement {m : Movement} {definingSteps : UInt32} {v : ℝ}
    (hentry : Single.HasValue m.entrySpeed v) (hexit : Single.HasValue m.exitSpeed v)
    (hsteps : definingSteps ≠ 0) : (ofMovement m definingSteps).Steady v := by
  have hzero : Double.Representable 0 := Double.hasValue_zero.representable
  have hcount : (2 * definingSteps.toNat : ℝ) ≠ 0 := by
    have := toNat_pos_of_ne_zero hsteps
    positivity
  have hdifference := hexit.mul_self_widen.sub_exact hentry.mul_self_widen (by rwa [sub_self])
  have hquotient := hdifference.div_exact (Double.hasValue_two_mul_toFloat definingSteps) hcount
    (by rwa [sub_self, zero_div])
  rw [sub_self, zero_div] at hquotient
  exact ⟨hentry.widen, hquotient, hexit.widen⟩

end Divisions

/-! ## Pieces and segments -/

namespace Movement

variable {m : Movement} {v : ℝ}

theorem hasValue_speeds_of_piece (hentry : Single.HasValue m.entrySpeed v)
    (hexit : Single.HasValue m.exitSpeed v) (hnonneg : 0 ≤ v) (hmoves : m.definingSteps ≠ 0)
    {piece : Division} (hmem : piece ∈ m.pieces) :
    Single.HasValue piece.movement.entrySpeed v ∧
      Single.HasValue piece.movement.exitSpeed v := by
  unfold pieces at hmem
  split at hmem
  · obtain rfl := List.mem_singleton.mp hmem
    exact ⟨hentry, hexit⟩
  · exact (Divisions.steady_ofMovement hentry hexit hmoves).speeds_of_mem hentry hnonneg hmem

theorem speeds_of_piece (hfinite : m.entrySpeed.isFinite = true) (hpos : 0 < m.entrySpeed)
    (hconstant : m.exitSpeed = m.entrySpeed) (hmoves : m.definingSteps ≠ 0) {piece : Division}
    (hmem : piece ∈ m.pieces) :
    piece.movement.entrySpeed = m.entrySpeed ∧ piece.movement.exitSpeed = m.entrySpeed := by
  obtain ⟨v, hv⟩ := Single.exists_hasValue hfinite
  have hvpos := hv.pos hpos
  obtain ⟨hentry, hexit⟩ :=
    hasValue_speeds_of_piece hv (hconstant ▸ hv) hvpos.le hmoves hmem
  exact ⟨hentry.unique hv hvpos.ne', hexit.unique hv hvpos.ne'⟩

theorem unsigned_square (hpos : 0 < m.entrySpeed) :
    Single.Unsigned (m.entrySpeed * m.entrySpeed) :=
  have ⟨hunsigned, hzero⟩ := Single.unsigned_of_pos hpos
  (Single.mul hunsigned hunsigned (absurd · hzero) (absurd · hzero)).1

end Movement

/-- Movements at the same constant speed travel in all their segments, however long they
are, and with the delay of a movement that takes one segment. -/
theorem Plan.constant_speed {t : Timing} {m : Movement} {p : Plan}
    (hplan : (t.plan m).value = .ok p) (hpos : 0 < m.entrySpeed)
    (hconstant : m.entrySpeed == m.exitSpeed) :
    ∃ delay : UInt32,
      (p.segments ≠ [] ∧
        ∀ entry ∈ p.segments, ∃ loops, entry.value.phase = .travel loops delay) ∧
      ∀ (steps : Axes Int32) (outputs : UInt16),
        largestMagnitude steps ≠ 0 → largestMagnitude steps ≤ stepsPerSegment →
        ∃ whole : Plan, (t.plan { m with steps, outputs }).value = .ok whole ∧
          whole.isSplit = false ∧
          ∃ loops, whole.segments.map (·.value.phase) = [.travel loops delay] := by
  obtain ⟨hmoves, hspeeds, -, -⟩ := Timing.plan_eq_ok hplan
  have hexit : m.exitSpeed = m.entrySpeed := (Single.eq_of_beq_of_pos hconstant hpos).symm
  have hvalid := (Movement.checkSpeeds_eq_ok_iff.mp hspeeds).1
  have hfinite := (Movement.speedIsValid_iff.mp hvalid).1
  have hsquare := Movement.unsigned_square hpos
  refine ⟨(t.travelDelay m.entrySpeed).value, ⟨?_, fun entry hmem => ?_⟩, ?_⟩
  · rw [Plan.segments_of_plan hplan, ne_eq, List.map_eq_nil_iff, ← List.length_eq_zero_iff]
    exact m.length_pieces_pos.ne'
  · rw [Plan.segments_of_plan hplan, List.mem_map] at hmem
    obtain ⟨piece, hpiece, rfl⟩ := hmem
    obtain ⟨hentry, hlast⟩ := Movement.speeds_of_piece hfinite hpos hexit hmoves hpiece
    have hphase := t.phase_of_constant_speed piece.definingSteps (by rwa [hentry])
      (hlast.trans hentry.symm)
    rw [hentry] at hphase
    exact ⟨_, hphase⟩
  · intro steps outputs hsome hfits
    set short : Movement := { m with steps, outputs }
    have hunsplit := t.plan_of_fits (m := short) hsome hspeeds hfits
    refine ⟨_, hunsplit, rfl, (loopsPerStep * short.definingSteps).toUInt16, ?_⟩
    have hpieces : short.pieces = [⟨short, short.definingSteps⟩] := if_pos hfits
    rw [Plan.segments_of_plan hunsplit, hpieces]
    exact congrArg ([·]) (t.phase_of_constant_speed short.definingSteps hsquare hexit)

/-- The square of the largest speed overflows in single precision. -/
theorem Plan.constant_speed_of_largest :
    ∃ p : Plan,
      (Timing.plan {} (.ofSteps [2147483647, -2147483648] (Float32.ofBits 0x7F7FFFFF)
        (Float32.ofBits 0x7F7FFFFF) 0)).value = .ok p ∧
      0 < Float32.ofBits 0x7F7FFFFF ∧
      ∃ delay : UInt32, p.segments ≠ [] ∧
        ∀ entry ∈ p.segments, ∃ loops, entry.value.phase = .travel loops delay := by
  obtain ⟨p, hplan⟩ : ∃ p : Plan,
      (Timing.plan {} (.ofSteps [2147483647, -2147483648] (Float32.ofBits 0x7F7FFFFF)
        (Float32.ofBits 0x7F7FFFFF) 0)).value = .ok p := ⟨_, rfl⟩
  have hpos : 0 < Float32.ofBits 0x7F7FFFFF := by decide
  obtain ⟨delay, htravels, -⟩ := Plan.constant_speed hplan hpos (by decide)
  exact ⟨p, hplan, hpos, delay, htravels⟩

end PulseTrain
